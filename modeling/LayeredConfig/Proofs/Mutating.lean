import LayeredConfig.Proofs.Flattening
import LayeredConfig.Proofs.Interchange

/-!
# Overrides on a job

To apply a mutator is to make an unfrozen copy of a job, to lay the overrides over it, and to name it.
`Overridden` describes the outcome: the overrides decide on the leaves that are not sticky, and the job on the
others. One source that is laid over a copy gives what it stores of these leaves, be it a bag or a job
(`Job.overridden_overlaid`). So a row of mutators leaves what the last one overrides that overrides anything
(`Mutator.chain_overrides`), and to apply the mutator of a job is to lay the job itself over a copy
(`Mutator.apply_ofJob`).
-/

namespace LayeredConfig

namespace Job

open Forest Session

variable {W : Session NodeType Key} {F G H : Forest NodeType Key} {i j : Job} {k : Key} {name : String}

/-! ## A job with a source on top -/

/-- In the forest `G` the job `i` has the name `name` and is otherwise the job `j` of the forest `F` with some
values on top. -/
structure Overridden (F : Forest NodeType Key) (j : Job) (laid : Key → Option (Value NodeType)) (name : String)
    (G : Forest NodeType Key) (i : Job) : Prop where
  isTop : G.IsTop i.val
  unfrozen : G.isFrozen i.val = false
  complete : Complete G i
  leaf : ∀ {k}, isLeaf k = true → catalog.isSticky k = false →
    G.explicit? i.val k = (laid k).or (F.explicit? j.val k)
  /-- The sticky leaves stay those of the job. -/
  mark : ∀ {k}, isLeaf k = true → catalog.isSticky k = true → k ≠ .id →
    G.explicit? i.val k = F.explicit? j.val k
  id : G.explicit? i.val .id = some (.text name)
  known : ∀ {k}, G.has i.val k = true → catalog.reaches .job k = true

/-- A copy of a job with a source laid over it, under a name. -/
def overlaid (F : Forest NodeType Key) (j : Job) (s : Node NodeType) (name : String) :
    Forest NodeType Key × Job :=
  let copy := deepClone F j
  ((copy.1.overlay catalog copy.2.val s).put copy.2.val .id (.text name), copy.2)

theorem overlaid_eq (F : Forest NodeType Key) (j : Job) (s : Node NodeType) (name : String) :
    overlaid F j s name = draft (toBag F j).1
      (stepsOfBag (toBag F j).1 (toBag F j).2 ++ [.merge s, .id name]) := by
  unfold draft
  simp only [Forest.draft_eq, List.foldl_append]
  rfl

theorem adds_overlaid (h : Reachable catalog W) {s : Node NodeType} (hs : W.Holds s) (j : Job) (name : String) :
    Adds catalog W ⟨(overlaid W.forest j s name).1, W.drafts⟩ [(overlaid W.forest j s name).2.val] := by
  rw [overlaid_eq]
  exact Adds.ofBag h.orderly j [.merge s, .id name] fun _ hn => List.mem_singleton.mp hn ▸ hs

theorem deepClone_eq (F : Forest NodeType Key) (j : Job) : deepClone F j = ofBag (toBag F j).1 (toBag F j).2 := by
  -- By cases: to see that a pair is taken apart here, nothing has to be enumerated.
  unfold deepClone
  cases toBag F j
  rfl

theorem outline?_deepClone (h : Reachable catalog W) (j : Job) (k : Key) :
    (deepClone W.forest j).1.outline? (deepClone W.forest j).2.val k =
      if catalog.reaches .job k = true then
        if catalog.isSlot k = true then some .slot else W.forest.outline? j.val k
      else none := by
  have hbag := outline?_ofBag (reachable_toBag h j) (holds_toBag h j).1 rfl k
  rw [outline?_toBag h, isLeaf] at hbag
  rw [deepClone_eq]
  refine hbag.trans ?_
  cases catalog.reaches .job k <;> cases catalog.isSlot k <;> rfl

theorem isTop_deepClone (h : Reachable catalog W) (j : Job) :
    (deepClone W.forest j).1.IsTop (deepClone W.forest j).2.val ∧
      (deepClone W.forest j).1.isFrozen (deepClone W.forest j).2.val = false := by
  have htop := isTop_ofBag (reachable_toBag h j) (holds_toBag h j)
  rw [deepClone_eq]
  exact htop

theorem outline?_overlaid (h : Reachable catalog W) {s : Node NodeType} (hs : W.Holds s)
    (ht : s.type = .bag ∨ s.type = .job) (j : Job) (name : String) (hk : k ≠ .id) :
    (overlaid W.forest j s name).1.outline? (overlaid W.forest j s name).2.val k =
      if catalog.reaches .job k = true then
        (if catalog.isSticky k = true then none else W.forest.outline? s k).or
          (if catalog.isSlot k = true then some .slot else W.forest.outline? j.val k)
      else none := by
  have hadds := Adds.deepClone h.orderly j
  have hclone := outline?_deepClone h j k
  unfold overlaid
  rcases hmade : deepClone W.forest j with ⟨G, i⟩
  rw [hmade] at hadds hclone
  have hcoh : Coherent catalog G := (hadds.reachable h).orderly.coherent
  have hknown : G.knows i.val = true := (hadds.fresh _ (List.mem_singleton.mpr rfl)).2.known
  have hread : G.storeOf s = W.forest.storeOf s := (hadds.same h.orderly hs.1).store
  show ((G.overlay catalog i.val s).put i.val .id (.text name)).outline? i.val k = _
  rw [outline?_put, if_neg hk, outline?_overlay hcoh hknown, given_congr hread, given, i.property,
    offers_job ht, hclone]
  cases catalog.isSticky k <;> cases catalog.reaches .job k <;> simp

theorem isLeaf_flags (f : FlagField) : isLeaf (.flags f) = true := by
  refine isLeaf_iff.mpr ⟨reaches_job (t := .flags) (by decide) ?_, ?_⟩
  · cases f <;> decide
  · cases f <;> rfl

/-- **A copy of a job with a source on top.** -/
theorem overridden_overlaid (h : Reachable catalog W) {s : Node NodeType} (hs : W.Holds s)
    (ht : s.type = .bag ∨ s.type = .job) (j : Job) (name : String) :
    Overridden W.forest j (W.forest.explicit? s) name (overlaid W.forest j s name).1
      (overlaid W.forest j s name).2 := by
  have hcoh := ((adds_overlaid h hs j name).reachable h).orderly.coherent
  have houtline := fun k : Key => outline?_overlaid (k := k) h hs ht j name
  have hclone := ((Adds.deepClone h.orderly j).reachable h).orderly.coherent
  have htop := isTop_deepClone h j
  -- How the copy is made does not matter from here on.
  unfold overlaid at hcoh houtline ⊢
  rcases hmade : deepClone W.forest j with ⟨H, i⟩
  simp only [hmade] at hcoh houtline hclone htop ⊢
  obtain ⟨htop, hfrozen⟩ := htop
  obtain ⟨hknown, hcell⟩ := Grows.overlay hclone htop.known s _ htop.known
  obtain ⟨htop', hfrozen'⟩ := htop.of_cell (G := (H.overlay catalog i.val s).put i.val .id (.text name)) hknown hcell
  -- Under a leaf that jobs know an outline tells the value.
  have hvalue : ∀ {k}, isLeaf k = true → k ≠ .id →
      ((H.overlay catalog i.val s).put i.val .id (.text name)).explicit? i.val k =
        (if catalog.isSticky k = true then none else W.forest.explicit? s k).or (W.forest.explicit? j.val k) := by
    intro k hk hid
    obtain ⟨hreach, hslot⟩ := isLeaf_iff.mp hk
    have hleaf := houtline _ hid
    rw [if_pos hreach, if_neg (Bool.eq_false_iff.mp hslot)] at hleaf
    have htype := Schema.slotType?_eq_none hslot
    rw [outline?_leaf hcoh htype, outline?_leaf h.orderly.coherent htype,
      outline?_leaf h.orderly.coherent htype] at hleaf
    refine Option.map_injective (fun _ _ e => Outline.leaf.inj e) (hleaf.trans ?_)
    rw [Option.map_or]
    cases catalog.isSticky k <;> rfl
  constructor
  case isTop => exact htop'
  case unfrozen => exact hfrozen'.trans hfrozen
  case complete =>
    intro k hreach hslot
    have hid : k ≠ .id := by
      rintro rfl
      cases hslot
    rw [has_eq_isSome_outline?, houtline _ hid, if_pos hreach, if_pos hslot, Option.isSome_or]
    exact Bool.or_true _
  case leaf =>
    intro k hk hsticky
    have hid : k ≠ .id := by
      rintro rfl
      cases hsticky
    rw [hvalue hk hid, hsticky]
    rfl
  case mark =>
    intro k hk hsticky hid
    rw [hvalue hk hid, hsticky]
    rfl
  case id =>
    rw [explicit?_put, if_pos ⟨rfl, rfl⟩]
  case known =>
    intro k hk
    by_cases hid : k = .id
    · rw [hid]
      exact catalog.reaches_id rfl
    · rw [has_eq_isSome_outline?, houtline _ hid] at hk
      cases hreach : catalog.reaches .job k with
      | true => rfl
      | false => simp [hreach] at hk

namespace Overridden

variable {laid more : Key → Option (Value NodeType)}

theorem trans {next : String} {l : Job} (h : Overridden F j laid name G i) (h' : Overridden G i more next H l) :
    Overridden F j (fun k => (more k).or (laid k)) next H l where
  isTop := h'.isTop
  unfrozen := h'.unfrozen
  complete := h'.complete
  leaf := fun hk hsticky => by rw [h'.leaf hk hsticky, h.leaf hk hsticky, Option.or_assoc]
  mark := fun hk hsticky hid => (h'.mark hk hsticky hid).trans (h.mark hk hsticky hid)
  id := h'.id
  known := h'.known

/-- What is told of the leaves tells what is on top, and of what. -/
theorem rebase (h : Overridden F j laid name G i) (hj : ∀ k, F.explicit? j.val k = H.explicit? j.val k)
    (hmore : ∀ {k}, isLeaf k = true → catalog.isSticky k = false → laid k = more k) :
    Overridden H j more name G i where
  isTop := h.isTop
  unfrozen := h.unfrozen
  complete := h.complete
  leaf := fun hk hsticky => by rw [h.leaf hk hsticky, hmore hk hsticky, hj]
  mark := fun hk hsticky hid => (h.mark hk hsticky hid).trans (hj _)
  id := h.id
  known := h.known

theorem flag (h : Overridden F j laid name G i) {f : FlagField} (hf : f.sticky = true) :
    G.explicit? i.val (.flags f) = F.explicit? j.val (.flags f) :=
  h.mark (isLeaf_flags f) hf fun e => nomatch e

theorem explicitId?_eq (h : Overridden F j laid name G i) : explicitId? G i = some name := by
  rw [explicitId?, h.id]
  rfl

theorem resolvedId_eq (h : Overridden F j laid name G i) (hname : name ≠ "" ∧ name ≠ defaultText)
    (settings : Settings) : Job.resolvedId G settings i = name := by
  have hhas : G.has i.val .id = true := Option.isSome_of_eq_some h.id
  rw [Job.resolvedId, Forest.resolvedId, if_pos hhas]
  exact catalog.idText_of_stored h.id hname

end Overridden

end Job

namespace Mutator

open Forest Session Job

variable {W J : Session NodeType Key} {F G H : Forest NodeType Key} {i j k : Job} {c : Key} {m : Mutator}
  {ms : List Mutator}

/-! ## Mutators in a row -/

/-- The job with the overrides of some mutators on top, one applied after the other. -/
def chain (F : Forest NodeType Key) (j : Job) : List Mutator → Forest NodeType Key × Job
  | [] => (F, j)
  | m :: ms =>
    let made := apply F m j
    chain made.1 made.2 ms

/-- What the last of some mutators overrides that overrides a key. -/
def override? (F : Forest NodeType Key) : List Mutator → Key → Option (Value NodeType)
  | [], _ => none
  | m :: ms, c => (override? F ms c).or (F.explicit? m.overrides c)

/-- The resolved id of a job with the names of some mutators behind it. -/
def chainName (F : Forest NodeType Key) (j : Job) (ms : List Mutator) : String :=
  "-".intercalate (Job.resolvedId F .default j :: ms.map Mutator.id)

/-- In the forest `G` the job `k` is what some mutators make of the job `j` of the forest `F`. -/
structure Chain (F : Forest NodeType Key) (j : Job) (ms : List Mutator) (G : Forest NodeType Key)
    (k : Job) : Prop extends Overridden F j (override? F ms) (chainName F j ms) G k where
  flag : ∀ {f : FlagField}, f.sticky = true → G.explicit? k.val (.flags f) = F.explicit? j.val (.flags f)
  explicitId : explicitId? G k = some (chainName F j ms)
  resolvedId : ∀ settings, Job.resolvedId G settings k = chainName F j ms
  same : ∀ {n}, F.knows n = true → Same F G n

theorem apply_eq (F : Forest NodeType Key) (m : Mutator) (j : Job) : apply F m j =
    overlaid F j m.overrides (Job.resolvedId F .default j ++ "-" ++ m.id) := by
  rw [overlaid_eq]
  rfl

theorem override?_congr (h : ∀ m ∈ ms, G.storeOf m.overrides = F.storeOf m.overrides) (c : Key) :
    override? G ms c = override? F ms c := by
  induction ms with
  | nil => rfl
  | cons m ms ih =>
      rw [override?, override?, ih fun m' hm' => h m' (List.mem_cons_of_mem _ hm'),
        explicit?_congr (h m (List.mem_cons_self ..))]

theorem isName_of_dash {s : String} (h : '-' ∈ s.toList) : s ≠ "" ∧ s ≠ defaultText := by
  constructor
  · rintro rfl
    simp at h
  · rintro rfl
    exact absurd h (by decide)

theorem chainName_cons (F : Forest NodeType Key) (j : Job) (m : Mutator) (ms : List Mutator) :
    chainName F j (m :: ms) =
      Job.resolvedId F .default j ++ "-" ++ "-".intercalate (m.id :: ms.map Mutator.id) := by
  rw [chainName, List.map_cons, String.intercalate_cons_cons]

theorem isName_chainName (F : Forest NodeType Key) (j : Job) (m : Mutator) (ms : List Mutator) :
    chainName F j (m :: ms) ≠ "" ∧ chainName F j (m :: ms) ≠ defaultText := by
  refine isName_of_dash ?_
  rw [chainName_cons, String.toList_append, String.toList_append]
  simp

theorem chain_apply (h : Reachable catalog W) (hm : W.Holds m.overrides) (ht : m.overrides.type = .bag)
    (j : Job) : Chain W.forest j [m] (apply W.forest m j).1 (apply W.forest m j).2 := by
  have hname : Job.resolvedId W.forest .default j ++ "-" ++ m.id = chainName W.forest j [m] := by
    rw [chainName_cons, List.map_nil, String.intercalate_singleton]
  have hlast : override? W.forest [m] = W.forest.explicit? m.overrides := funext fun _ => Option.none_or
  have hadds := adds_overlaid h hm j (chainName W.forest j [m])
  have hover := overridden_overlaid h hm (Or.inl ht) j (chainName W.forest j [m])
  rw [apply_eq, hname]
  rw [← hlast] at hover
  exact {
    hover with
    flag := hover.flag
    explicitId := hover.explicitId?_eq
    resolvedId := hover.resolvedId_eq (isName_chainName ..)
    same := fun hn => hadds.same h.orderly hn }

theorem Chain.cons (hfirst : Chain F j [m] G i) (hrest : Chain G i ms H k)
    (hm : ∀ m' ∈ ms, F.knows m'.overrides = true) : Chain F j (m :: ms) H k := by
  have hlast : (fun c => (override? G ms c).or (override? F [m] c)) = override? F (m :: ms) := by
    funext c
    rw [override?_congr fun m' hm' => (hfirst.same (hm m' hm')).store]
    rfl
  have hname : chainName G i ms = chainName F j (m :: ms) := by
    have hid := hfirst.resolvedId .default
    rw [chainName_cons, List.map_nil, String.intercalate_singleton] at hid
    rw [chainName, chainName_cons, hid]
    cases ms with
    | nil => rw [List.map_nil, String.intercalate_singleton, String.intercalate_singleton]
    | cons m' ms =>
        rw [List.map_cons, String.intercalate_cons_cons, String.intercalate_cons_cons]
        simp only [String.append_assoc]
  have hover := hfirst.toOverridden.trans hrest.toOverridden
  rw [hlast, hname] at hover
  exact {
    hover with
    flag := hover.flag
    explicitId := hover.explicitId?_eq
    resolvedId := hover.resolvedId_eq (isName_chainName ..)
    same := fun hn => (hfirst.same hn).trans (hrest.same (hfirst.same hn).known) }

theorem chain_cons (h : Reachable catalog W) (j : Job)
    (hm : ∀ m' ∈ m :: ms, W.Holds m'.overrides ∧ m'.overrides.type = .bag) :
    Chain W.forest j (m :: ms) (chain W.forest j (m :: ms)).1 (chain W.forest j (m :: ms)).2 := by
  induction ms generalizing W j m with
  | nil =>
      obtain ⟨hheld, ht⟩ := hm m (List.mem_cons_self ..)
      rw [chain, chain]
      exact chain_apply h hheld ht j
  | cons m' ms ih =>
      obtain ⟨⟨hheld, ht⟩, hothers⟩ := List.forall_mem_cons.mp hm
      have hadds := Adds.mutate h.orderly hheld j
      have hrest := ih (hadds.reachable h) (apply W.forest m j).2 fun n hn =>
        ⟨hadds.holds h.orderly (hothers n hn).1, (hothers n hn).2⟩
      rw [chain]
      exact (chain_apply h hheld ht j).cons hrest fun n hn => (hothers n hn).1.1

/-- **Mutators in a row: the last override counts, the name grows, and nothing that was there changes.** -/
theorem chain_overrides (hJ : JobReachable J) (j : Job) (hms : ms ≠ [])
    (hm : ∀ m ∈ ms, J.Holds m.overrides ∧ m.overrides.type = .bag) :
    Chain J.forest j ms (chain J.forest j ms).1 (chain J.forest j ms).2 := by
  cases ms with
  | nil => exact absurd rfl hms
  | cons m ms => exact chain_cons hJ.reachable j hm

/-- The job and the bag of `mixed`, the bag with overrides, one of them for a sticky leaf; another bag with an
override; and another job, without slots, with a name and a mark. -/
def tuned : Session NodeType Key :=
  ⟨[.set ⟨2, .bag⟩ (.run .launchCount) (.int 3), .set ⟨2, .bag⟩ (.flags .isMutator) (.bool false), .bare .bag,
      .set ⟨4, .bag⟩ (.run .launchCount) (.int 5), .bare .job, .set ⟨5, .job⟩ .id (.text "Fast"),
      .set ⟨5, .job⟩ (.flags .isDefault) (.bool true)].foldl (Operation.run catalog) mixed.forest, []⟩

theorem jobReachable_tuned : JobReachable tuned := by
  refine JobReachable.run jobReachable_mixed ?_
  decide

def tunings : List Mutator := [⟨"Warm", ⟨2, .bag⟩⟩, ⟨"Long", ⟨4, .bag⟩⟩]

theorem chain_overrides_tuned :
    (JobReachable tuned ∧ tunings ≠ [] ∧ ∀ m ∈ tunings, tuned.Holds m.overrides ∧ m.overrides.type = .bag) ∧
      Chain tuned.forest (nth 0) tunings (chain tuned.forest (nth 0) tunings).1
        (chain tuned.forest (nth 0) tunings).2 := by
  have hne : tunings ≠ [] := List.cons_ne_nil _ _
  have hheld : ∀ m ∈ tunings, tuned.Holds m.overrides ∧ m.overrides.type = .bag := by decide +kernel
  exact ⟨⟨jobReachable_tuned, hne, hheld⟩, chain_overrides jobReachable_tuned _ hne hheld⟩

/-! ## One job over another -/

/-- A copy of the job `j` with the job `m` laid over it, and then the ids of both set as its id. -/
def layered (F : Forest NodeType Key) (m j : Job) : Outcome NodeType Key Job :=
  let copy := deepClone F j
  match copy.1.apply catalog copy.2.val m.val with
  | (.error e, F) => (.error e, F)
  | (.ok (), F) =>
    let id := Job.resolvedId F .default j ++ "-" ++ Job.resolvedId F .default m
    match F.set catalog copy.2.val .id (.text id) with
    | (.error e, F) => (.error e, F)
    | (.ok (), F) => (.ok copy.2, F)

/-- What a job and another one, each in its forest, have in common if both hold the same. -/
structure Alike (G : Forest NodeType Key) (i : Job) (H : Forest NodeType Key) (k : Job) : Prop where
  isTop : G.IsTop i.val ∧ H.IsTop k.val
  unfrozen : G.isFrozen i.val = false ∧ H.isFrozen k.val = false
  complete : Complete G i ∧ Complete H k
  stored : ∀ c, G.has i.val c = H.has k.val c
  leaf : ∀ {c}, catalog.isSlot c = false → G.explicit? i.val c = H.explicit? k.val c
  bag : ∀ c, (toBag G i).1.explicit? (toBag G i).2 c = (toBag H k).1.explicit? (toBag H k).2 c
  resolvedId : ∀ settings, Job.resolvedId G settings i = Job.resolvedId H settings k

theorem Alike.of_overridden {V U : Session NodeType Key} (hV : Reachable catalog V) (hU : Reachable catalog U)
    {laid : Key → Option (Value NodeType)} {name : String} (hname : name ≠ "" ∧ name ≠ defaultText)
    (h : Overridden F j laid name V.forest i) (h' : Overridden F j laid name U.forest k) :
    Alike V.forest i U.forest k := by
  have hleaf : ∀ {c}, isLeaf c = true → V.forest.explicit? i.val c = U.forest.explicit? k.val c := by
    intro c hc
    by_cases hid : c = .id
    · rw [hid, h.id, h'.id]
    · cases hsticky : catalog.isSticky c with
      | true => rw [h.mark hc hsticky hid, h'.mark hc hsticky hid]
      | false => rw [h.leaf hc hsticky, h'.leaf hc hsticky]
  have hunknown : ∀ {c}, catalog.reaches .job c = false →
      V.forest.has i.val c = false ∧ U.forest.has k.val c = false := by
    intro c hc
    constructor
    · exact Bool.eq_false_iff.mpr fun hhas => Bool.eq_false_iff.mp hc (h.known hhas)
    · exact Bool.eq_false_iff.mpr fun hhas => Bool.eq_false_iff.mp hc (h'.known hhas)
  have hvalue : ∀ {c}, catalog.isSlot c = false → V.forest.explicit? i.val c = U.forest.explicit? k.val c := by
    intro c hslot
    cases hreach : catalog.reaches .job c with
    | true => exact hleaf (isLeaf_iff.mpr ⟨hreach, hslot⟩)
    | false =>
        obtain ⟨hi, hk⟩ := hunknown hreach
        rw [has_eq_false_iff.mp hi, has_eq_false_iff.mp hk]
  constructor
  case isTop => exact ⟨h.isTop, h'.isTop⟩
  case unfrozen => exact ⟨h.unfrozen, h'.unfrozen⟩
  case complete => exact ⟨h.complete, h'.complete⟩
  case stored =>
    intro c
    cases hslot : catalog.isSlot c with
    | false => exact congrArg Option.isSome (hvalue hslot)
    | true =>
        cases hreach : catalog.reaches .job c with
        | true => rw [h.complete hreach hslot, h'.complete hreach hslot]
        | false => rw [(hunknown hreach).1, (hunknown hreach).2]
  case leaf => exact hvalue
  case bag =>
    intro c
    rw [explicit?_toBag hV, explicit?_toBag hU]
    cases hc : isLeaf c with
    | true => exact hleaf hc
    | false => rfl
  case resolvedId =>
    intro settings
    rw [h.resolvedId_eq hname, h'.resolvedId_eq hname]

theorem resolvedId_of_same (h : Reachable catalog W) (hsame : Same W.forest G j.val) (settings : Settings) :
    Job.resolvedId G settings j = Job.resolvedId W.forest settings j :=
  resolvedId_eq (agree h fun _ => explicit?_congr hsame.store _) settings

theorem layered_eq (h : Reachable catalog W) (hm : W.Holds k.val) (hj : W.Holds j.val) :
    let name := Job.resolvedId W.forest .default j ++ "-" ++ Job.resolvedId W.forest .default k
    layered W.forest k j = (.ok (overlaid W.forest j k.val name).2, (overlaid W.forest j k.val name).1) := by
  intro name
  have hadds := Adds.deepClone h.orderly j
  obtain ⟨htop, hfrozen⟩ := isTop_deepClone h j
  rw [layered, overlaid]
  rcases hmade : deepClone W.forest j with ⟨G, i⟩
  rw [hmade] at hadds htop hfrozen
  have hcoh : Coherent catalog G := (hadds.reachable h).orderly.coherent
  have hnew : New W ⟨G, W.drafts⟩ i.val := hadds.new_of_mem (List.mem_singleton.mpr rfl)
  have hlaid : G.apply catalog i.val k.val = (.ok (), G.overlay catalog i.val k.val) :=
    applyAll_of_unfrozen hfrozen [k.val]
  -- To lay a job over the copy leaves all else as it is, the two jobs among it.
  have hstep : StepAside catalog (fun r => W.forest.knows r = true) ⟨G, W.drafts⟩
      ⟨(G.apply catalog i.val k.val).2, W.drafts⟩ := by
    refine .call (.applyAll i.val [k.val]) (fun n hn => ?_) fun n hn => ?_
    · rcases List.mem_cons.mp hn with rfl | hn
      · exact hnew.holds h.orderly rfl
      · exact List.mem_singleton.mp hn ▸ hadds.holds h.orderly hm
    · exact List.mem_singleton.mp hn ▸ Bool.eq_false_iff.mp hnew.2
  have hrest := Adds.of_run (hadds.run.tail hstep)
  rw [hlaid] at hrest
  have hunfrozen : (G.overlay catalog i.val k.val).isFrozen i.val = false :=
    ((Grows.overlay hcoh htop.known k.val).isFrozen hcoh htop.known).trans hfrozen
  have haccepts : catalog.accepts .id (.text name) = true := Format.accepts_iff_fits.mpr trivial
  have hset := set_of_leaf hunfrozen haccepts rfl
  have hids := resolvedId_of_same h (hrest.same h.orderly hj.1)
  have hids' := resolvedId_of_same h (hrest.same h.orderly hm.1)
  simp only [hlaid, hids, hids']
  rw [hset]

/-- The mutator of a job overrides what the job stores of the leaves that are not sticky. -/
theorem explicit?_ofJob (h : Reachable catalog W) (k : Job) (hc : isLeaf c = true)
    (hsticky : catalog.isSticky c = false) :
    (ofJob W.forest k).1.explicit? (ofJob W.forest k).2.overrides c = W.forest.explicit? k.val c := by
  have hkeys := (catalog.nodup_closure .job).filter fun c => !catalog.isSlot c && !catalog.isSticky c
  have hleaves : ∀ d ∈ (catalog.closure .job).filter fun c => !catalog.isSlot c && !catalog.isSticky c,
      catalog.isSlot d = false := by
    intro d hd
    have hfilter := (List.mem_filter.mp hd).2
    rw [Bool.and_eq_true, Bool.not_eq_true'] at hfilter
    exact hfilter.1
  obtain ⟨hreach, hslot⟩ := isLeaf_iff.mp hc
  refine explicit?_copy h k hkeys hleaves ?_
  rw [List.mem_filter, hslot, hsticky]
  exact ⟨of_decide_eq_true hreach, rfl⟩

/-- **To apply the mutator of a job is to layer the job itself over a copy.** -/
theorem apply_ofJob (hJ : JobReachable J) {k : Job} (hk : J.Holds k.val) (hj : J.Holds j.val) :
    let mutator := ofJob J.forest k
    let mutated := apply mutator.1 mutator.2 j
    ∃ i H, layered J.forest k j = (.ok i, H) ∧ Alike mutated.1 mutated.2 H i := by
  intro mutator mutated
  let name := Job.resolvedId J.forest .default j ++ "-" ++ Job.resolvedId J.forest .default k
  have h := hJ.reachable
  have hadds : Adds catalog J ⟨mutator.1, J.drafts⟩ [mutator.2.overrides] := Adds.bag h.orderly k _
  have hbag := hadds.reachable h
  have hheld := (hadds.new_of_mem (List.mem_singleton.mpr rfl)).holds h.orderly rfl
  have hsame := hadds.same h.orderly hj.1
  have hmade : mutated = overlaid mutator.1 j mutator.2.overrides name := by
    show apply mutator.1 mutator.2 j = _
    rw [apply_eq, resolvedId_of_same h hsame]
    rfl
  have hname : name ≠ "" ∧ name ≠ defaultText := isName_of_dash (by simp [name])
  -- The bag has what the job has, so that both ways put the same on top.
  have hmutated := (overridden_overlaid hbag hheld (Or.inl rfl) j name).rebase
    (explicit?_congr hsame.store) (explicit?_ofJob h k)
  have hlayered := overridden_overlaid h hk (Or.inr k.property) j name
  have hreached := (adds_overlaid hbag hheld j name).reachable hbag
  have hreached' := (adds_overlaid h hk j name).reachable h
  rw [hmade]
  exact ⟨_, _, layered_eq h hk hj, Alike.of_overridden hreached hreached' hname hmutated hlayered⟩

def fast : Job := ⟨⟨5, .job⟩, rfl⟩

theorem apply_ofJob_tuned :
    (JobReachable tuned ∧ tuned.Holds fast.val ∧ tuned.Holds (nth 0).val) ∧
      ∃ i H, layered tuned.forest fast (nth 0) = (.ok i, H) ∧
        Alike (apply (ofJob tuned.forest fast).1 (ofJob tuned.forest fast).2 (nth 0)).1
          (apply (ofJob tuned.forest fast).1 (ofJob tuned.forest fast).2 (nth 0)).2 H i := by
  have hheld : tuned.Holds fast.val ∧ tuned.Holds (nth 0).val := by decide +kernel
  exact ⟨⟨jobReachable_tuned, hheld⟩, apply_ofJob jobReachable_tuned hheld.1 hheld.2⟩

end Mutator

end LayeredConfig
