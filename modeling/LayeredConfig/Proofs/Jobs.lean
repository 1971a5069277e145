import LayeredConfig.Job.Session
import LayeredConfig.Proofs.Isolation

/-!
# Operations on jobs are runs

Whatever is done with jobs is made of operations on nodes and of drafts. Jobs, bags and mutators are made as
new trees, and what they are made from is only read (`Session.Adds.jobOperation`); so a job and its copies are
apart (`Session.isolation_of_reachable`).
-/

namespace LayeredConfig

/-! ## What the steps of a draft read -/

namespace Job

variable (F : Forest NodeType Key)

theorem operands_ids (id? : Option String) :
    (id?.toList.map (DraftStep.id (S := catalog))).flatMap DraftStep.operands = [] := by
  cases id? <;> rfl

theorem operands_merges (sources : List (Node NodeType)) :
    (sources.map (DraftStep.merge (S := catalog))).flatMap DraftStep.operands = sources := by
  induction sources with
  | nil => rfl
  | cons s sources ih => exact congrArg (s :: ·) ih

theorem operands_deriveSteps (j : Job) : (deriveSteps F j).flatMap DraftStep.operands = [j.val] := by
  rw [deriveSteps, List.flatMap_append, operands_ids]
  rfl

theorem operands_copySteps (j : Job) (keys : List Key) :
    (copySteps F j keys).flatMap DraftStep.operands = [] := by
  rw [copySteps, List.flatMap_eq_nil_iff]
  intro step hstep
  obtain ⟨k, -, hk⟩ := List.mem_filterMap.mp hstep
  obtain ⟨v, -, rfl⟩ := Option.map_eq_some_iff.mp hk
  rfl

theorem operands_stepsOfBag (bag : Node NodeType) :
    (stepsOfBag F bag).flatMap DraftStep.operands = [bag] := by
  have hraw : ∀ es : List (Key × Value NodeType),
      (es.map fun e => DraftStep.raw (S := catalog) e.1 e.2).flatMap DraftStep.operands = [] := by
    intro es
    rw [List.flatMap_eq_nil_iff]
    intro step hstep
    obtain ⟨e, -, rfl⟩ := List.mem_map.mp hstep
    rfl
  rw [stepsOfBag, List.flatMap_cons, hraw]
  rfl

end Job

/-- To lay sources over a new bag is a draft. -/
theorem Forest.bagOf_eq {τ κ : Type} [DecidableEq τ] [DecidableEq κ] (S : Schema τ κ) (F : Forest τ κ) (t : τ)
    (sources : List (Node τ)) : F.bagOf S t sources = F.draft S t (sources.map .merge) := by
  simp only [Forest.bagOf, Forest.draft, List.foldl_map]
  rfl

/-! ## What an operation on jobs can do -/

/-- What can come of giving a job a collector, once the copy of the job has its environment: the collector
cannot be copied, or to set its copy is refused, or the copy is set. -/
theorem Job.withGc_cases {F F₁ F₂ : Forest NodeType Key} {j job : Job} (gc : Node NodeType)
    {environment? : Option (Node NodeType)} (hmade : draft F (deriveSteps F j) = (F₁, job))
    (hfound : F₁.childOrNew catalog job.val (.job .environment) = (F₂, environment?)) :
    (∃ e, withGc F j gc = (.error e, F₂)) ∨
      ∃ copy F₃, F₂.unfreezeCopy catalog gc = (.ok copy, F₃) ∧
        ((∃ e, withGc F j gc =
            (.error e, (F₃.set catalog (environment?.getD job.val) collector (.node copy)).2)) ∨
          withGc F j gc =
            (.ok job, (F₃.set catalog (environment?.getD job.val) collector (.node copy)).2)) := by
  rcases hcopy : F₂.unfreezeCopy catalog gc with ⟨e | copy, F₃⟩
  · rcases Forest.unfreezeCopy_cases catalog F₂ gc with ⟨e', he⟩ | ⟨-, he⟩
    · obtain rfl : F₂ = F₃ := congrArg Prod.snd (he.symm.trans hcopy)
      exact Or.inl ⟨.node e, by simp only [withGc, hmade, hfound, hcopy]⟩
    · rw [hcopy] at he
      cases he
  · refine Or.inr ⟨copy, F₃, rfl, ?_⟩
    rcases hset : F₃.set catalog (environment?.getD job.val) collector (.node copy) with ⟨e | u, F₄⟩
    · exact Or.inl ⟨.node e, by simp only [withGc, hmade, hfound, hcopy, hset]⟩
    · exact Or.inr (by simp only [withGc, hmade, hfound, hcopy, hset])

/-- An override is refused, and nothing changes, or it is a leaf that is set in the bag. -/
theorem Mutator.add_cases (F : Forest NodeType Key) (m : Mutator) (k : Key) (x : k.Content) :
    (∃ e, add F m k x = (.error e, F)) ∨
      catalog.slotType? k = none ∧
        add F m k x = (.ok m, (F.set catalog m.overrides k ((catalog.format k).write x)).2) := by
  unfold add
  split
  · exact Or.inl ⟨_, rfl⟩
  · split
    · exact Or.inl ⟨_, rfl⟩
    · next hslot =>
      split
      · exact Or.inl ⟨_, rfl⟩
      · rcases hset : F.set catalog m.overrides k ((catalog.format k).write x) with ⟨e | u, G⟩
        · have hG := Forest.eq_of_set_error (congrArg Prod.fst hset)
          rw [hset] at hG
          exact Or.inl ⟨.node e, congrArg (Except.error (JobFailure.node e), ·) hG⟩
        · refine Or.inr ⟨?_, rfl⟩
          exact Option.not_isSome_iff_eq_none.mp hslot

namespace Session

open Forest

variable {W W' W'' : Session NodeType Key} {P : Node NodeType → Prop} {r : Node NodeType}

/-! ## New jobs -/

namespace Adds

variable {j : Job} {m : Mutator} {gc : Node NodeType}

theorem job (h : Orderly catalog W) (steps : List (DraftStep catalog)) {sources : List (Node NodeType)}
    (hs : steps.flatMap DraftStep.operands = sources) (ho : ∀ m ∈ sources, W.Holds m) :
    Adds catalog W ⟨(Job.draft W.forest steps).1, W.drafts⟩ [(Job.draft W.forest steps).2.val] :=
  draft h .job steps (hs ▸ ho)

theorem bag (h : Orderly catalog W) (j : Job) (keys : List Key) :
    Adds catalog W ⟨(W.forest.draft catalog .bag (Job.copySteps W.forest j keys)).1, W.drafts⟩
      [(W.forest.draft catalog .bag (Job.copySteps W.forest j keys)).2] := by
  refine draft h .bag _ fun n hn => ?_
  rw [Job.operands_copySteps] at hn
  cases hn

theorem derived (h : Orderly catalog W) (hj : W.Holds j.val) (steps : List (DraftStep catalog))
    (hs : steps.flatMap DraftStep.operands = []) :
    Adds catalog W ⟨(Job.draft W.forest (Job.deriveSteps W.forest j ++ steps)).1, W.drafts⟩
      [(Job.draft W.forest (Job.deriveSteps W.forest j ++ steps)).2.val] := by
  have hread : (Job.deriveSteps W.forest j ++ steps).flatMap DraftStep.operands = [j.val] := by
    rw [List.flatMap_append, Job.operands_deriveSteps, hs]
    rfl
  exact job h _ hread fun _ hn => List.mem_singleton.mp hn ▸ hj

theorem adjust (h : Orderly catalog W) (hj : W.Holds j.val) (k : Key) (x : k.Content) :
    Adds catalog W ⟨(Job.adjust W.forest j k x).1, W.drafts⟩ [(Job.adjust W.forest j k x).2.val] :=
  derived h hj [.value k x] rfl

/-- A job is made from a bag that the same operation has made. -/
theorem ofBag (h : Orderly catalog W) (j : Job) (more : List (DraftStep catalog))
    (hmore : ∀ n ∈ more.flatMap DraftStep.operands, W.Holds n) :
    let made := Job.toBag W.forest j
    let steps := Job.stepsOfBag made.1 made.2 ++ more
    Adds catalog W ⟨(Job.draft made.1 steps).1, W.drafts⟩ [(Job.draft made.1 steps).2.val] := by
  intro made steps
  have hbag : Adds catalog W ⟨made.1, W.drafts⟩ [made.2] := bag h j _
  have hjob := job (W := ⟨made.1, W.drafts⟩) (hbag.run.steps.orderly h) steps rfl fun _ hn => by
    rw [List.flatMap_append, Job.operands_stepsOfBag, List.singleton_append] at hn
    rcases List.mem_cons.mp hn with rfl | hn
    · exact (hbag.new_of_mem (List.mem_singleton.mpr rfl)).holds h rfl
    · exact hbag.holds h (hmore _ hn)
  exact (hbag.trans h hjob).mono fun k hk => List.mem_append_right _ hk

theorem deepClone (h : Orderly catalog W) (j : Job) :
    Adds catalog W ⟨(Job.deepClone W.forest j).1, W.drafts⟩ [(Job.deepClone W.forest j).2.val] := by
  have hclone := ofBag h j [] fun n hn => nomatch hn
  simp only [List.append_nil] at hclone
  exact hclone

theorem withGc (h : Orderly catalog W) (hj : W.Holds j.val) (hg : W.Holds gc) :
    Adds catalog W ⟨((JobOperation.withGc j gc).outcome W.forest).2, W.drafts⟩
      (((JobOperation.withGc j gc).outcome W.forest).1.toOption.getD []) := by
  rw [JobOperation.outcome, JobOperation.answered]
  rcases hmade : Job.draft W.forest (Job.deriveSteps W.forest j) with ⟨F₁, made⟩
  rcases hfound : F₁.childOrNew catalog made.val (.job .environment) with ⟨F₂, environment?⟩
  -- The copy of the job comes first, ...
  have hread : ∀ n ∈ (Job.deriveSteps W.forest j).flatMap DraftStep.operands, W.Holds n := by
    rw [Job.operands_deriveSteps]
    exact fun _ hn => List.mem_singleton.mp hn ▸ hj
  have h₁ := job h _ rfl hread
  have hunfrozen := (isTop_draft h .job _ hread).2
  rw [hmade] at h₁
  -- ... then its environment, which is a node of the new tree, ...
  obtain ⟨h₂, hknown, hroot⟩ := h₁.childOrNew h rfl (List.mem_singleton.mpr rfl) (hmade ▸ hunfrozen)
    (c := .job .environment) rfl hfound
  rcases Job.withGc_cases gc hmade hfound with ⟨e, he⟩ | ⟨copy, F₃, hcopy, hset⟩
  · rw [he]
    exact h₂.mono fun _ hk => nomatch hk
  · -- ... and at last the copy of the collector, which is set in the environment.
    have hF₂ := h₂.run.steps.orderly h
    have h₃ := unfreezeCopy hF₂ (h₂.holds h hg) hcopy
    have hsame := h₃.same hF₂ hknown
    have hroot₃ : F₃.rootOf (environment?.getD made.val) = made.val := hsame.root.trans hroot
    have hnew : New W ⟨F₃, W.drafts⟩ (environment?.getD made.val) :=
      ⟨hsame.known, hroot₃.symm ▸ (h₂.fresh _ (List.mem_singleton.mpr rfl)).1⟩
    have h₄ := (h₂.trans h h₃).set h rfl hnew
      (List.mem_append_right _ (List.mem_singleton.mpr rfl)) Job.collector
    rw [hroot₃] at h₄
    rcases hset with ⟨e, he⟩ | he
    · rw [he]
      exact h₄.mono fun _ hk => nomatch hk
    · rw [he]
      exact h₄

theorem mutate (h : Orderly catalog W) (hm : W.Holds m.overrides) (j : Job) :
    Adds catalog W ⟨(Mutator.apply W.forest m j).1, W.drafts⟩ [(Mutator.apply W.forest m j).2.val] :=
  ofBag h j [.merge m.overrides, .id _] fun _ hn => List.mem_singleton.mp hn ▸ hm

theorem mutateAll (h : Orderly catalog W) (hm : W.Holds m.overrides) (js : List Job) :
    Adds catalog W ⟨(Mutator.applyAll m W.forest js).1, W.drafts⟩
      ((Mutator.applyAll m W.forest js).2.map Subtype.val) := by
  induction js generalizing W with
  | nil => exact refl catalog W
  | cons j js ih =>
      have hfirst := mutate h hm j
      have hrest := ih (hfirst.run.steps.orderly h) (hfirst.holds h hm)
      rw [Mutator.applyAll_cons]
      exact hfirst.trans h hrest

theorem withPackage (h : Orderly catalog W) (hj : W.Holds j.val) (package : String) (version : Option String) :
    Adds catalog W ⟨((JobOperation.withPackage j package version).outcome W.forest).2, W.drafts⟩
      (((JobOperation.withPackage j package version).outcome W.forest).1.toOption.getD []) := by
  simp only [JobOperation.outcome, JobOperation.answered, Job.withPackage]
  split
  · exact refl catalog W
  · exact adjust h hj _ _

end Adds

/-! ## All operations -/

/-- **Every operation that has no target adds trees, the ones that it answers among them.** -/
theorem Adds.jobOperation (h : Orderly catalog W) (o : JobOperation) (ho : ∀ n ∈ o.operands, W.Holds n)
    (ht : o.targets = []) :
    Adds catalog W ⟨(o.outcome W.forest).2, W.drafts⟩ ((o.outcome W.forest).1.toOption.getD []) := by
  cases o with
  | bagOf sources =>
      have hbag := Adds.draft h .bag (sources.map .merge) (by rwa [Job.operands_merges])
      rw [← bagOf_eq] at hbag
      exact hbag
  | named id => exact Adds.job h [.id id] rfl fun n hn => nomatch hn
  | ofNodes id? sources =>
      have hread : (id?.toList.map (DraftStep.id (S := catalog)) ++ sources.map DraftStep.merge).flatMap
          DraftStep.operands = sources := by
        rw [List.flatMap_append, Job.operands_ids, Job.operands_merges]
        rfl
      exact Adds.job h _ hread ho
  | toBag j => exact Adds.bag h j _
  | ofBag bag => exact Adds.job h _ (Job.operands_stepsOfBag W.forest bag) ho
  | deepClone j => exact Adds.deepClone h j
  | adjust j k x => exact Adds.adjust h (ho _ (List.mem_cons_self ..)) k x
  | withId j id => exact Adds.job h [.id id, .merge j.val] rfl ho
  | withEnvironmentVariable j v =>
      exact Adds.adjust h (ho _ (List.mem_cons_self ..)) (.environment .environmentVariables) _
  | withGc j gc =>
      exact Adds.withGc h (ho _ (List.mem_cons_self ..)) (ho _ (List.mem_cons_of_mem _ (List.mem_cons_self ..)))
  | withPackage j package version => exact Adds.withPackage h (ho _ (List.mem_cons_self ..)) package version
  | runOncePerIteration j => exact Adds.derived h (ho _ (List.mem_cons_self ..)) _ rfl
  | mark j f => exact Adds.adjust h (ho _ (List.mem_cons_self ..)) (.flags f) true
  | newMutator id => exact Adds.bare h .bag
  | mutatorOf j => exact Adds.bag h j _
  | addOverride m k x => cases ht
  | mutate m j => exact Adds.mutate h (ho _ (List.mem_cons_self ..)) j
  | mutateAll m js => exact Adds.mutateAll h (ho _ (List.mem_cons_self ..)) js

/-- **Every operation is a run that leaves aside all trees but those of its targets.** -/
theorem aside_jobOperation (h : Orderly catalog W) (o : JobOperation) (ho : ∀ n ∈ o.operands, W.Holds n)
    (hP : ∀ r, P r → W.forest.knows r = true) (ht : ∀ n ∈ o.targets, ¬ P (W.forest.rootOf n)) :
    StepsAside catalog P W ⟨(o.outcome W.forest).2, W.drafts⟩ := by
  have hadds : o.targets = [] → StepsAside catalog P W ⟨(o.outcome W.forest).2, W.drafts⟩ := fun htargets =>
    (Adds.jobOperation h o ho htargets).run.mono hP
  cases o with
  | addOverride m k x =>
      rcases Mutator.add_cases W.forest m k x with ⟨e, he⟩ | ⟨hk, he⟩
      · rw [JobOperation.outcome, JobOperation.answered, he]
        exact .refl
      · rw [JobOperation.outcome, JobOperation.answered, he]
        have hoperands : (Operation.set m.overrides k ((catalog.format k).write x)).operands = [m.overrides] := by
          rw [Operation.operands, Schema.node?_write hk]
          rfl
        refine .tail .refl (.call (.set m.overrides k _) (fun n hn => ho n ?_) fun n hn => ht n ?_)
        · rwa [hoperands] at hn
        · have hmem := Operation.mem_operands_of_targets hn
          rwa [hoperands] at hmem
  | _ => exact hadds rfl

/-- Some steps of a run and some operations on jobs, one after the other, none of them called on a tree of a
root that `P` picks. -/
inductive JobStepsAside (P : Node NodeType → Prop) (W : Session NodeType Key) : Session NodeType Key → Prop where
  | refl : JobStepsAside P W W
  | step {W' W'' : Session NodeType Key} (hs : JobStepsAside P W W') (h : StepAside catalog P W' W'') :
    JobStepsAside P W W''
  | job {W' : Session NodeType Key} (hs : JobStepsAside P W W') (o : JobOperation)
      (ho : ∀ n ∈ o.operands, W'.Holds n) (ht : ∀ n ∈ o.targets, ¬ P (W'.forest.rootOf n)) :
    JobStepsAside P W ⟨(o.outcome W'.forest).2, W'.drafts⟩

/-- The sessions that a client can reach who works on jobs as well; no tree need be left aside. -/
abbrev JobReachable (W : Session NodeType Key) : Prop := JobStepsAside (fun _ => False) empty W

namespace JobStepsAside

/-- Operations on jobs reach no other sessions. -/
theorem steps (hs : JobStepsAside P W W') (h : Orderly catalog W) : Steps catalog W W' := by
  have haside : StepsAside catalog (fun _ => False) W W' := by
    induction hs with
    | refl => exact .refl
    | step _ hstep ih => exact ih.tail (hstep.mono fun _ hf => hf.elim)
    | job _ o ho _ ih =>
        exact ih.trans (aside_jobOperation (ih.steps.orderly h) o ho (fun _ hf => hf.elim) fun _ _ hf => hf)
  exact haside.steps

theorem madeOfSteps : MadeOfSteps catalog JobStepsAside := by
  intro P r U V h hr hp hs
  have hsub : ∀ n, n = r → P n := fun _ e => e ▸ hp
  induction hs with
  | refl => exact .refl
  | step _ hstep ih => exact ih.tail (hstep.mono hsub)
  | job _ o ho ht ih =>
      have hr' := (ih.untouched h hr rfl).isTop
      exact ih.trans (aside_jobOperation (ih.steps.orderly h) o ho (fun _ e => e ▸ hr'.known)
        fun n hn e => ht n hn (hsub _ e))

end JobStepsAside

theorem JobReachable.reachable {J : Session NodeType Key} (h : JobReachable J) : Reachable catalog J :=
  JobStepsAside.steps h Orderly.empty

/-- How the trees of a session are apart for a client who works on jobs as well. -/
structure JobIsolation (W : Session NodeType Key) : Prop extends Isolation catalog JobStepsAside W where
  /-- An operation on jobs touches no tree but those of its targets. -/
  jobCall : ∀ {o : JobOperation} {r}, (∀ n ∈ o.operands, W.Holds n) → W.forest.IsTop r →
    (∀ n ∈ o.targets, W.forest.rootOf n ≠ r) → Untouched W.forest (o.outcome W.forest).2 r
  /-- Whatever an operation on jobs answers is new, and apart from what was there. -/
  answer : ∀ {o : JobOperation} {ks k G}, (∀ n ∈ o.operands, W.Holds n) → o.outcome W.forest = (.ok ks, G) →
    k ∈ ks → Copied JobStepsAside W ⟨G, W.drafts⟩ k

/-- An operation that has a target answers no new root. -/
theorem targets_of_answer {F G : Forest NodeType Key} {o : JobOperation} {ks : List (Node NodeType)}
    {k : Node NodeType} (h : o.outcome F = (.ok ks, G)) (hk : k ∈ ks) : o.targets = [] := by
  cases o with
  | addOverride m c x =>
      rw [JobOperation.outcome, JobOperation.answered] at h
      rcases Mutator.add_cases F m c x with ⟨e, he⟩ | ⟨-, he⟩
      · rw [he] at h
        cases h
      · rw [he] at h
        cases h
        cases hk
  | _ => rfl

theorem Orderly.jobIsolation (h : Orderly catalog W) : JobIsolation W := by
  constructor
  case toIsolation => exact h.isolation JobStepsAside.madeOfSteps
  case jobCall =>
    intro o r ho hr ht
    have hs := aside_jobOperation (P := (· = r)) h o ho (fun _ e => e ▸ hr.known) ht
    exact hs.untouched h hr rfl
  case answer =>
    intro o ks k G ho he hk
    have hadds := Adds.jobOperation h o ho (targets_of_answer he hk)
    rw [he] at hadds
    exact hadds.copied h JobStepsAside.madeOfSteps hk

/-- **In every session that a client can reach the trees are apart, and every copy is apart from what it was
made from.** -/
theorem isolation_of_reachable {τ κ : Type} [DecidableEq τ] [DecidableEq κ] {S : Schema τ κ} {W : Session τ κ}
    {J : Session NodeType Key} (h : Reachable S W) (hJ : JobReachable J) :
    Isolation S (StepsAside S) W ∧ JobIsolation J :=
  ⟨h.orderly.isolation StepsAside.madeOfSteps, hJ.reachable.orderly.jobIsolation⟩

theorem JobReachable.run {F : Forest NodeType Key} (h : JobReachable ⟨F, []⟩)
    {os : List (Operation NodeType Key)} (hos : Operation.Handed catalog F os) :
    JobReachable ⟨os.foldl (Operation.run catalog) F, []⟩ := by
  induction os generalizing F with
  | nil => exact h
  | cons o os ih =>
      have hholds : ∀ n ∈ o.operands, Holds ⟨F, []⟩ n := fun n hn => ⟨hos.1 n hn, List.not_mem_nil⟩
      exact ih (h.step (.call o hholds fun _ _ hf => hf)) hos.2

/-- A mutator with one override. -/
def warm : Session NodeType Key :=
  let F := ((JobOperation.newMutator "Warm").outcome .empty).2
  ⟨((JobOperation.addOverride ⟨"Warm", ⟨1, .bag⟩⟩ (.run .warmupCount) (9 : Int32)).outcome F).2, []⟩

theorem jobReachable_warm : JobReachable warm := by
  have h₀ : JobReachable empty := .refl
  have h₁ := h₀.job (.newMutator "Warm") (by decide) (by decide)
  exact h₁.job (.addOverride ⟨"Warm", ⟨1, .bag⟩⟩ (.run .warmupCount) (9 : Int32)) (by decide) (by decide)

theorem isolation_warm :
    (Reachable catalog joined ∧ JobReachable warm ∧ warm.forest.has ⟨1, .bag⟩ (.run .warmupCount) = true) ∧
      Isolation catalog (StepsAside catalog) joined ∧ JobIsolation warm :=
  ⟨⟨reachable_joined, jobReachable_warm, by decide⟩, isolation_of_reachable reachable_joined jobReachable_warm⟩

end Session

end LayeredConfig
