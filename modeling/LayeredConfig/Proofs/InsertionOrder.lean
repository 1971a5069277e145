import LayeredConfig.Job.Defaults
import LayeredConfig.Proofs.Jobs
import LayeredConfig.Proofs.Outline
import LayeredConfig.Proofs.Parts
import LayeredConfig.Proofs.SideBySide
import Mathlib.Data.List.Basic

/-!
# In which order a store was filled

Whatever is done with jobs answers the same on alike forests, and leaves them alike (`Alike.jobOperation`):
jobs are made by drafts, and the collector that a job is given is a fresh copy that brings no slots. So in all
that a client can do the order in which a store was filled shows nowhere, with one exception
(`Session.indistinct_of_alike`): where a node is set that brings several slots, they come over in that order,
and each of them empties the slot that it comes into; then the order decides what stays
(`Session.not_alike_twofold`).
-/

namespace LayeredConfig

/-- Every key has a place of declaration of its own. -/
theorem Key.number_injective : Function.Injective catalog.number := by
  intro k k' h
  exact (List.idxOf_inj (Key.mem_all k)).mp h

/-- The collector's settings are leaves. -/
theorem Key.isSlot_of_reaches_gc {k : Key} (hk : catalog.reaches .gc k = true) : catalog.isSlot k = false := by
  have hleaves : ∀ k ∈ catalog.declarations .gc, catalog.isSlot k = false := by decide
  exact hleaves k (Job.mem_closure_gc.mp (of_decide_eq_true hk))

/-- What comes of a setting in an operation on jobs that answers `a`. -/
def JobOutcome.ofSet {α : Type} (a : α) : Outcome NodeType Key Unit → JobOutcome α
  | (.error e, F) => (.error (.node e), F)
  | (.ok (), F) => (.ok a, F)

/-- The rest of giving a job a collector, once the copy of the job has its environment. -/
def Job.equip (F : Forest NodeType Key) (job : Job) (environment gc : Node NodeType) : JobOutcome Job :=
  match F.unfreezeCopy catalog gc with
  | (.error e, F) => (.error (.node e), F)
  | (.ok copy, F) => JobOutcome.ofSet job (F.set catalog environment collector (.node copy))

theorem Job.withGc_eq (F : Forest NodeType Key) (j : Job) (gc : Node NodeType) :
    withGc F j gc =
      let made := draft F (deriveSteps F j)
      let found := made.1.childOrNew catalog made.2.val (.job .environment)
      equip found.1 made.2 (found.2.getD made.2.val) gc := by
  unfold withGc
  rcases draft F (deriveSteps F j) with ⟨G, job⟩
  rcases G.childOrNew catalog job.val (.job .environment) with ⟨H, environment?⟩
  rfl

namespace JobOperation

open Forest

variable {α : Type} {nodes : α → List (Node NodeType)}

theorem made_alike {x y : Forest NodeType Key × α} (h : y.2 = x.2 ∧ Alike x.1 y.1) :
    (made nodes y).1 = (made nodes x).1 ∧ Alike (made nodes x).2 (made nodes y).2 :=
  ⟨congrArg (fun a => Except.ok (nodes a)) h.1, h.2⟩

theorem answered_alike {x y : JobOutcome α} (h : y.1 = x.1 ∧ Alike x.2 y.2) :
    (answered nodes y).1 = (answered nodes x).1 ∧ Alike (answered nodes x).2 (answered nodes y).2 :=
  ⟨congrArg (Except.map nodes) h.1, h.2⟩

end JobOperation

theorem JobOutcome.ofSet_alike {α : Type} (a : α) {x y : Outcome NodeType Key Unit}
    (h : y.1 = x.1 ∧ x.2.Alike y.2) : (ofSet a y).1 = (ofSet a x).1 ∧ (ofSet a x).2.Alike (ofSet a y).2 := by
  obtain ⟨done, F⟩ := x
  obtain ⟨done', G⟩ := y
  obtain ⟨rfl, halike⟩ : done' = done ∧ F.Alike G := h
  cases done' with
  | error e => exact ⟨rfl, halike⟩
  | ok u => exact ⟨rfl, halike⟩

theorem Forest.Settled.jobDraft {F : Forest NodeType Key} (h : Settled catalog F)
    (steps : List (DraftStep catalog)) :
    Settled catalog (Job.draft F steps).1 ∧ (Job.draft F steps).1.IsTop (Job.draft F steps).2.val :=
  h.draft .job steps

namespace Forest.Alike

variable {F G : Forest NodeType Key} (h : Alike F G)

include h

/-! ## What a job shows -/

theorem explicitId?_eq (j : Job) : Job.explicitId? G j = Job.explicitId? F j := by
  rw [Job.explicitId?, Job.explicitId?, h.stored]

theorem resolvedId_eq (settings : Settings) (j : Job) :
    Job.resolvedId G settings j = Job.resolvedId F settings j := by
  simp only [Job.resolvedId, Forest.resolvedId, h.has_eq, h.idOf_eq Key.number_injective,
    h.present_eq Key.number_injective]

theorem displayInfo_eq (settings : Settings) (j : Job) :
    Job.displayInfo G settings j = Job.displayInfo F settings j := by
  simp only [Job.displayInfo, h.resolvedId_eq, h.present_eq Key.number_injective]

theorem customized_eq (j : Job) : Job.customized G j = Job.customized F j :=
  congrArg (List.filter _) ((h.view j.val).withValues_eq Key.number_injective)

theorem compareJobs_eq (policy : OrderPolicy) (x y : Job) :
    Job.compareJobs G policy x y = Job.compareJobs F policy x y := by
  rw [Job.compareJobs, Job.compareJobs, h.compareNodes_eq Key.number_injective]

theorem get?_eq (n : Node NodeType) (k : Key) : G.get? catalog n k = F.get? catalog n k :=
  (h.reads Key.number_injective).content n k

/-! ## Steps of drafts -/

theorem copySteps_eq (j : Job) (keys : List Key) : Job.copySteps G j keys = Job.copySteps F j keys := by
  simp only [Job.copySteps, h.stored]

theorem deriveSteps_eq (j : Job) : Job.deriveSteps G j = Job.deriveSteps F j := by
  rw [Job.deriveSteps, Job.deriveSteps, h.explicitId?_eq]

theorem stepsOfBag_eq (bag : Node NodeType) : Job.stepsOfBag G bag = Job.stepsOfBag F bag := by
  rw [Job.stepsOfBag, Job.stepsOfBag, h.leafEntries_eq Key.number_injective]

/-! ## New jobs -/

variable (hF : Settled catalog F) (hG : Settled catalog G)

include hF hG

theorem jobDraft (steps : List (DraftStep catalog)) :
    (Job.draft G steps).2 = (Job.draft F steps).2 ∧ Alike (Job.draft F steps).1 (Job.draft G steps).1 := by
  obtain ⟨hnode, hdraft⟩ := h.draft hF hG Key.number_injective .job steps
  exact ⟨Subtype.ext hnode, hdraft⟩

theorem toBag (j : Job) :
    (Job.toBag G j).2 = (Job.toBag F j).2 ∧ Alike (Job.toBag F j).1 (Job.toBag G j).1 := by
  unfold Job.toBag
  rw [h.copySteps_eq]
  exact h.draft hF hG Key.number_injective .bag _

/-- A job is made from the bag of another job, and from more. -/
theorem ofBag (j : Job) (more : List (DraftStep catalog)) :
    let madeF := Job.toBag F j
    let madeG := Job.toBag G j
    let stepsF := Job.stepsOfBag madeF.1 madeF.2 ++ more
    let stepsG := Job.stepsOfBag madeG.1 madeG.2 ++ more
    (Job.draft madeG.1 stepsG).2 = (Job.draft madeF.1 stepsF).2 ∧
      Alike (Job.draft madeF.1 stepsF).1 (Job.draft madeG.1 stepsG).1 := by
  intro madeF madeG stepsF stepsG
  obtain ⟨hnode, hbag⟩ := h.toBag hF hG j
  have hsteps : stepsG = stepsF := by
    show Job.stepsOfBag madeG.1 madeG.2 ++ more = Job.stepsOfBag madeF.1 madeF.2 ++ more
    rw [hbag.stepsOfBag_eq, hnode]
  rw [hsteps]
  exact hbag.jobDraft (hF.draft _ _).1 (hG.draft _ _).1 stepsF

theorem adjust (j : Job) (k : Key) (x : k.Content) :
    (Job.adjust G j k x).2 = (Job.adjust F j k x).2 ∧ Alike (Job.adjust F j k x).1 (Job.adjust G j k x).1 := by
  unfold Job.adjust
  rw [h.deriveSteps_eq]
  exact h.jobDraft hF hG _

theorem mutate (m : Mutator) (j : Job) :
    (Mutator.apply G m j).2 = (Mutator.apply F m j).2 ∧
      Alike (Mutator.apply F m j).1 (Mutator.apply G m j).1 := by
  unfold Mutator.apply
  rw [h.resolvedId_eq]
  exact h.ofBag hF hG j _

theorem mutateAll (m : Mutator) (js : List Job) :
    (Mutator.applyAll m G js).2 = (Mutator.applyAll m F js).2 ∧
      Alike (Mutator.applyAll m F js).1 (Mutator.applyAll m G js).1 := by
  induction js generalizing F G with
  | nil => exact ⟨rfl, h⟩
  | cons j js ih =>
      obtain ⟨hnode, hfirst⟩ := h.mutate hF hG m j
      have hsettled : ∀ {F : Forest NodeType Key}, Settled catalog F →
          Settled catalog (Mutator.apply F m j).1 := fun hF => ((hF.draft _ _).1.draft _ _).1
      obtain ⟨hnodes, hrest⟩ := ih hfirst (hsettled hF) (hsettled hG)
      rw [Mutator.applyAll_cons, Mutator.applyAll_cons]
      exact ⟨congrArg₂ List.cons hnode hnodes, hrest⟩

/-- An override is a leaf, so that no slots come along. -/
theorem add (m : Mutator) (k : Key) (x : k.Content) (hm : F.knows m.overrides = true) :
    (Mutator.add G m k x).1 = (Mutator.add F m k x).1 ∧
      Alike (Mutator.add F m k x).2 (Mutator.add G m k x).2 := by
  unfold Mutator.add
  rw [h.has_eq]
  split
  · exact ⟨rfl, h⟩
  · split
    · exact ⟨rfl, h⟩
    · next hslot =>
      split
      · exact ⟨rfl, h⟩
      · have hv := Schema.node?_write (Option.not_isSome_iff_eq_none.mp hslot) x
        have hnone : ∀ d, (catalog.format k).write x ≠ .node d := fun d hd => by
          rw [hd] at hv
          cases hv
        have hset := h.set hF hG Key.number_injective hm (fun d hd => absurd hd (hnone d))
          (Operation.orderFree_of_leaf (c := k) hv)
        exact JobOutcome.ofSet_alike m ⟨h.set_fst_eq Key.number_injective _ _ _, hset⟩

/-! ## The collector of a job -/

omit h hG in
/-- A copy of collector settings brings no slots. -/
theorem slotsIn_unfreezeCopy {gc copy : Node NodeType} {F' : Forest NodeType Key} (ht : copy.type = .gc)
    (hcopy : F.unfreezeCopy catalog gc = (.ok copy, F')) : F'.slotsIn copy = [] := by
  have hF' : Coherent catalog F' := by
    have hcoh := hF.coherent.unfreezeCopy gc
    rwa [hcopy] at hcoh
  have hgc : gc.type = .gc := by
    rw [(eq_of_unfreezeCopy_ok hcopy).1] at ht
    exact ht
  rw [List.eq_nil_iff_forall_not_mem]
  rintro ⟨k, v⟩ hk
  obtain ⟨m, -, hm⟩ := mem_slotsIn.mp hk
  have hhas : F'.has copy k = true := Option.isSome_iff_exists.mpr ⟨_, child?_eq_some.mp hm⟩
  have hleaf := Key.isSlot_of_reaches_gc
    (hgc ▸ reaches_of_has_unfreezeCopy hF.coherent (by rw [hgc]; rfl) hcopy hhas)
  rw [Schema.isSlot, hF'.type_of_child hm] at hleaf
  cases hleaf

theorem equip (job : Job) {environment : Node NodeType} (hn : F.knows environment = true) (gc : Node NodeType) :
    (Job.equip G job environment gc).1 = (Job.equip F job environment gc).1 ∧
      Alike (Job.equip F job environment gc).2 (Job.equip G job environment gc).2 := by
  obtain ⟨hanswer, hcopied⟩ := h.unfreezeCopy hF hG Key.number_injective gc
  have hF' := hF.unfreezeCopy gc
  have hG' := hG.unfreezeCopy gc
  have hgrows := Grows.unfreezeCopy hF.coherent gc
  unfold Job.equip
  rcases hcopyF : F.unfreezeCopy catalog gc with ⟨answer, F₁⟩
  rcases hcopyG : G.unfreezeCopy catalog gc with ⟨answer', G₁⟩
  rw [hcopyF, hcopyG] at hanswer hcopied
  rw [hcopyF] at hF' hgrows
  rw [hcopyG] at hG'
  obtain rfl : answer' = answer := hanswer
  cases answer' with
  | error e => exact ⟨rfl, hcopied⟩
  | ok copy =>
      have hcopy := knows_of_unfreezeCopy hF.coherent hcopyF
      -- The copy brings no slots, so that their order does not matter.
      have hfree : (Operation.set environment Job.collector (.node copy)).OrderFree catalog F₁ G₁ := by
        intro hset _
        have ht : copy.type = .gc :=
          (Option.some.inj (Schema.accepts_node.mp (accepts_of_set_ok hset))).symm
        rw [slotsIn_unfreezeCopy hF ht hcopyF, slotsIn_unfreezeCopy hG ht hcopyG]
        exact Or.inl rfl
      have hset := hcopied.set hF' hG' Key.number_injective (hgrows _ hn).1
        (fun d hd => Value.node.inj hd ▸ hcopy) hfree
      exact JobOutcome.ofSet_alike job ⟨hcopied.set_fst_eq Key.number_injective _ _ _, hset⟩

theorem withGc (j : Job) (gc : Node NodeType) :
    (Job.withGc G j gc).1 = (Job.withGc F j gc).1 ∧ Alike (Job.withGc F j gc).2 (Job.withGc G j gc).2 := by
  -- The copy of the job comes first, then its environment, and at last the collector.
  obtain ⟨hjob, hmade⟩ := h.jobDraft hF hG (Job.deriveSteps F j)
  obtain ⟨hF', htop⟩ := hF.jobDraft (Job.deriveSteps F j)
  have hG' := (hG.jobDraft (Job.deriveSteps F j)).1
  obtain ⟨hfound, henvironment⟩ := hmade.childOrNew hF' hG' htop.known (.job .environment)
  have hoperands : ∀ n ∈ (Operation.childOrNew (Job.draft F (Job.deriveSteps F j)).2.val
      (Key.job .environment)).operands, (Job.draft F (Job.deriveSteps F j)).1.knows n = true :=
    fun _ hn => List.mem_singleton.mp hn ▸ htop.known
  have hknown := knows_found_or_root hF'.coherent htop.known (.job .environment)
  rw [Job.withGc_eq, Job.withGc_eq, h.deriveSteps_eq]
  dsimp only
  rw [hjob, hfound]
  refine henvironment.equip (hF'.operation (.childOrNew _ _) hoperands) (hG'.operation (.childOrNew _ _) ?_) _
    hknown gc
  exact fun n hn => (hmade.knows n).trans (hoperands n hn)

/-! ## All operations -/

/-- **An operation on jobs answers the same on alike forests and leaves them alike.** -/
theorem jobOperation (o : JobOperation) (ho : ∀ n ∈ o.operands, F.knows n = true) :
    (o.outcome G).1 = (o.outcome F).1 ∧ Alike (o.outcome F).2 (o.outcome G).2 := by
  cases o with
  | bagOf sources =>
      have hdraft := h.draft hF hG Key.number_injective .bag (sources.map .merge)
      rw [← bagOf_eq, ← bagOf_eq] at hdraft
      exact JobOperation.made_alike hdraft
  | named id => exact JobOperation.made_alike (h.jobDraft hF hG _)
  | ofNodes id? sources => exact JobOperation.made_alike (h.jobDraft hF hG _)
  | toBag j => exact JobOperation.made_alike (h.toBag hF hG j)
  | ofBag bag =>
      rw [JobOperation.outcome, JobOperation.outcome, Job.ofBag, Job.ofBag, h.stepsOfBag_eq]
      exact JobOperation.made_alike (h.jobDraft hF hG _)
  | deepClone j =>
      have hclone := h.ofBag hF hG j []
      simp only [List.append_nil] at hclone
      exact JobOperation.made_alike hclone
  | adjust j k x => exact JobOperation.made_alike (h.adjust hF hG j k x)
  | withId j id => exact JobOperation.made_alike (h.jobDraft hF hG _)
  | withEnvironmentVariable j v =>
      have hvariables : Job.environmentVariables G j = Job.environmentVariables F j :=
        congrArg (Option.getD · []) (h.get?_eq j.val (.environment .environmentVariables))
      rw [JobOperation.outcome, JobOperation.outcome, Job.withEnvironmentVariable, Job.withEnvironmentVariable,
        hvariables]
      exact JobOperation.made_alike (h.adjust hF hG j _ _)
  | withGc j gc => exact JobOperation.answered_alike (h.withGc hF hG j gc)
  | withPackage j package version =>
      have hreferences : Job.packageReferences G j = Job.packageReferences F j :=
        congrArg (Option.getD · []) (h.get?_eq j.val (.infrastructure .packageReferences))
      rw [JobOperation.outcome, JobOperation.outcome, Job.withPackage, Job.withPackage, hreferences]
      dsimp only
      split
      · exact ⟨rfl, h⟩
      · obtain ⟨hjob, hend⟩ := h.adjust hF hG j (.infrastructure .packageReferences)
          (Job.packageReferences F j ++ [Job.packageReference package version])
        exact JobOperation.answered_alike ⟨congrArg Except.ok hjob, hend⟩
  | runOncePerIteration j =>
      rw [JobOperation.outcome, JobOperation.outcome, Job.runOncePerIteration, Job.runOncePerIteration,
        h.deriveSteps_eq]
      exact JobOperation.made_alike (h.jobDraft hF hG _)
  | mark j f => exact JobOperation.made_alike (h.adjust hF hG j _ _)
  | newMutator id =>
      obtain ⟨hnode, hend⟩ := h.bare hF hG .bag
      exact ⟨congrArg (fun n => Except.ok [n]) hnode, hend⟩
  | mutatorOf j =>
      rw [JobOperation.outcome, JobOperation.outcome, Mutator.ofJob, Mutator.ofJob, h.copySteps_eq]
      obtain ⟨hnode, hend⟩ := h.draft hF hG Key.number_injective .bag (Job.copySteps F j
        ((catalog.closure .job).filter fun k => !catalog.isSlot k && !catalog.isSticky k))
      exact ⟨congrArg (fun n => Except.ok [n]) hnode, hend⟩
  | addOverride m k x =>
      rw [JobOperation.outcome, JobOperation.outcome]
      exact JobOperation.answered_alike (h.add hF hG m k x (ho _ (List.mem_cons_self ..)))
  | mutate m j => exact JobOperation.made_alike (h.mutate hF hG m j)
  | mutateAll m js => exact JobOperation.made_alike (h.mutateAll hF hG m js)

end Forest.Alike

/-! ## The defaults of jobs -/

namespace Defaults

open Forest

theorem strategy_eq {F G : Forest NodeType Key} (h : Alike F G) : strategy G = strategy F := by
  funext n
  rw [strategy, strategy, h.value?_eq Key.number_injective]

/-- The defaults that are not fixed go by the strategy of the node. -/
theorem blind_resolver (host : Host) : (resolver host).Blind := by
  refine Resolver.blind_chain fun r hr => ?_
  simp only [List.mem_cons, List.not_mem_nil, or_false] at hr
  rcases hr with rfl | rfl | rfl
  · refine Resolver.blind_table ?_
    simp [environment, member, constant, Default.Blind]
  · refine Resolver.blind_table ?_
    simp only [engine, member, constant, List.forall_mem_cons, Default.Blind, true_and]
    refine ⟨fun h => ?_, fun h => ?_, fun h => ?_, List.forall_mem_nil _⟩
    · rw [strategy_eq h]
    · rw [strategy_eq h]
    · rw [strategy_eq h]
  · refine Resolver.blind_table ?_
    simp [infrastructure, constant, Default.Blind]

end Defaults

/-- Two forests between which a client finds no difference either when it works on jobs. -/
structure Forest.JobsIndistinct (F G : Forest NodeType Key) : Prop extends Indistinct catalog F G where
  explicitId? : ∀ j, Job.explicitId? G j = Job.explicitId? F j
  resolvedId : ∀ settings j, Job.resolvedId G settings j = Job.resolvedId F settings j
  folderInfo : ∀ settings j, Job.folderInfo G settings j = Job.folderInfo F settings j
  displayInfo : ∀ settings j, Job.displayInfo G settings j = Job.displayInfo F settings j
  customized : ∀ j, Job.customized G j = Job.customized F j
  compareJobs : ∀ policy x y, Job.compareJobs G policy x y = Job.compareJobs F policy x y
  /-- What jobs leave empty is supplied alike. -/
  default : ∀ host n k, (Defaults.resolver host).resolve catalog G n k =
    (Defaults.resolver host).resolve catalog F n k
  jobCall : ∀ o : JobOperation, (∀ n ∈ o.operands, F.knows n = true) →
    (o.outcome G).1 = (o.outcome F).1 ∧ Alike (o.outcome F).2 (o.outcome G).2

theorem Forest.Alike.jobsIndistinct {F G : Forest NodeType Key} (h : Alike F G) (hF : Settled catalog F)
    (hG : Settled catalog G) : JobsIndistinct F G where
  toIndistinct := h.indistinct hF hG Key.number_injective
  explicitId? := h.explicitId?_eq
  resolvedId := h.resolvedId_eq
  folderInfo := fun settings j => congrArg folderSafe (h.resolvedId_eq settings j)
  displayInfo := h.displayInfo_eq
  customized := h.customized_eq
  compareJobs := h.compareJobs_eq
  default := fun host => h.resolve_eq Key.number_injective (Defaults.blind_resolver host)
  jobCall := h.jobOperation hF hG

namespace Session

open Forest

theorem Reachable.settled {τ κ : Type} [DecidableEq τ] [DecidableEq κ] {S : Schema τ κ} {W : Session τ κ}
    (h : Reachable S W) : Settled S W.forest := ⟨h.orderly.coherent, h.grounded⟩

/-- **In which order stores were filled shows nowhere**, unless a node is set whose slots are not apart. -/
theorem indistinct_of_alike {τ κ : Type} [DecidableEq τ] [DecidableEq κ] {S : Schema τ κ} {W V : Session τ κ}
    {J K : Session NodeType Key} (hnum : Function.Injective S.number) (hW : Reachable S W) (hV : Reachable S V)
    (h : Alike W.forest V.forest) (hJ : JobReachable J) (hK : JobReachable K)
    (hjobs : Alike J.forest K.forest) :
    Indistinct S W.forest V.forest ∧ JobsIndistinct J.forest K.forest :=
  ⟨h.indistinct hW.settled hV.settled hnum, hjobs.jobsIndistinct hJ.reachable.settled hK.reachable.settled⟩

/-! ## Two trees that were filled in another order -/

/-- Two trees, an environment and a collector. The first tree has a collector, and an environment if it is
furnished. -/
def apartment (furnished : Bool) : Session NodeType Key :=
  let os : List (Operation NodeType Key) :=
    [.bare .tree, .bare .tree, .bare .environment, .bare .gc, .childOrNew ⟨1, .tree⟩ (.environment .gc)]
  let furniture := if furnished then [.childOrNew ⟨1, .tree⟩ (.job .environment)] else []
  ⟨(os ++ furniture).foldl (Operation.run catalog) .empty, []⟩

/-- The same after the environment and the collector are put into the second tree, in one of the two orders. -/
def twofold (furnished reversed : Bool) : Session NodeType Key :=
  let environment : Operation NodeType Key := .set ⟨2, .tree⟩ (.job .environment) (.node ⟨3, .environment⟩)
  let collector : Operation NodeType Key := .set ⟨2, .tree⟩ (.environment .gc) (.node ⟨4, .gc⟩)
  let fillings := if reversed then [collector, environment] else [environment, collector]
  ⟨fillings.foldl (Operation.run catalog) (apartment furnished).forest, []⟩

/-- To set the second tree into the left slot of the first one. -/
abbrev joining : Operation NodeType Key := .set ⟨1, .tree⟩ (.specimen .left) (.node ⟨2, .tree⟩)

theorem jobReachable_apartment (furnished : Bool) : JobReachable (apartment furnished) := by
  refine JobReachable.run .refl ?_
  cases furnished <;> decide

theorem jobReachable_twofold (furnished reversed : Bool) : JobReachable (twofold furnished reversed) := by
  refine JobReachable.run (jobReachable_apartment furnished) ?_
  cases furnished <;> cases reversed <;> decide

theorem ready_apartment (furnished : Bool) :
    Ready catalog (apartment furnished).forest ⟨2, .tree⟩ (.job .environment) ⟨3, .environment⟩ ∧
      Ready catalog (apartment furnished).forest ⟨2, .tree⟩ (.environment .gc) ⟨4, .gc⟩ := by
  cases furnished
  all_goals
    constructor
    all_goals
      refine ⟨by decide, by decide, by decide, by decide, ?_, by decide⟩
      exact ⟨by decide, by decide, by decide, by decide⟩

theorem alike_twofold (furnished : Bool) :
    Alike (twofold furnished false).forest (twofold furnished true).forest := by
  obtain ⟨henvironment, hcollector⟩ := ready_apartment furnished
  have hknown : (apartment furnished).forest.knows ⟨2, .tree⟩ = true := by cases furnished <;> decide
  have hcoh := (jobReachable_apartment furnished).reachable.orderly.coherent
  exact Alike.set_comm hcoh hknown henvironment hcollector (by decide) (by decide)

theorem indistinct_twofold :
    let W := twofold false false
    let V := twofold false true
    (Function.Injective catalog.number ∧ JobReachable W ∧ JobReachable V ∧ Alike W.forest V.forest) ∧
      (V.forest.slotsIn ⟨2, .tree⟩).map Prod.fst ≠ (W.forest.slotsIn ⟨2, .tree⟩).map Prod.fst ∧
      Alike (joining.run catalog W.forest) (joining.run catalog V.forest) ∧
      Indistinct catalog W.forest V.forest ∧ JobsIndistinct W.forest V.forest := by
  intro W V
  have hW := jobReachable_twofold false false
  have hV := jobReachable_twofold false true
  have halike := alike_twofold false
  have hindistinct := indistinct_of_alike Key.number_injective hW.reachable hV.reachable halike hW hV halike
  -- No environment goes along with a collector, and the first tree has no environment.
  have hfree : joining.OrderFree catalog W.forest V.forest := by
    intro _ _
    refine Or.inr ?_
    have hslots : (W.forest.slotsIn ⟨2, .tree⟩).map Prod.fst = [.job .environment, .environment .gc] := by
      decide
    have hbelongs : catalog.belongs .gc (.job .environment) = false := by decide +kernel
    rw [hslots]
    refine List.Pairwise.cons (fun k hk => ?_) (List.pairwise_singleton ..)
    obtain rfl := List.mem_singleton.mp hk
    exact ⟨by decide, rfl, hbelongs, fun b _ hb => absurd hb Bool.false_ne_true⟩
  exact ⟨⟨Key.number_injective, hW, hV, halike⟩, by decide, hindistinct.1.call joining (by decide) hfree,
    hindistinct⟩

/-- **The order in which a node's slots were filled decides what stays of them**: the environment that was in
the first tree takes the collector along, be it the old one or the one that has just come over. -/
theorem not_alike_twofold :
    let W := twofold true false
    let V := twofold true true
    (Reachable catalog W ∧ Reachable catalog V ∧ Alike W.forest V.forest ∧ ∀ n ∈ joining.operands, W.Holds n) ∧
      (joining.answer catalog W.forest = .ok none ∧ joining.answer catalog V.forest = .ok none) ∧
      (joining.run catalog W.forest).child? ⟨1, .tree⟩ (.environment .gc) = some ⟨4, .gc⟩ ∧
      (joining.run catalog V.forest).child? ⟨1, .tree⟩ (.environment .gc) = none ∧
      ¬ Alike (joining.run catalog W.forest) (joining.run catalog V.forest) := by
  intro W V
  have hW : (joining.run catalog W.forest).child? ⟨1, .tree⟩ (.environment .gc) = some ⟨4, .gc⟩ := by
    decide +kernel
  have hV : (joining.run catalog V.forest).child? ⟨1, .tree⟩ (.environment .gc) = none := by
    decide +kernel
  refine ⟨⟨(jobReachable_twofold true false).reachable, (jobReachable_twofold true true).reachable,
    alike_twofold true, by decide⟩, ⟨rfl, rfl⟩, hW, hV, fun h => ?_⟩
  rw [h.child?_eq, hW] at hV
  cases hV

end Session

end LayeredConfig
