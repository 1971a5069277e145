import LayeredConfig.Proofs.Varying

/-!
# References to packages

A job keeps its references as texts: the name of a package, and behind an at sign its version. Before a job
takes one more, the texts are taken apart again at their first at sign, and the name of the package is looked
for among what stands before it.

So the versions do not matter (`Job.packageName_packageReference`), but of a name only what stands before its
own first at sign is ever found. A package is refused if a name that was granted before is cut to its name
(`Job.referred_of_calls`). That is the package itself as long as no name has an at sign; a name with one is
never refused, and stands in the way of another package.
-/

namespace LayeredConfig

namespace Job

open Forest Session

variable {J W : Session NodeType Key} {F : Forest NodeType Key} {j : Job}

/-! ## Names and references -/

theorem takeWhile_append_cons_at (xs ys : List Char) :
    (xs ++ '@' :: ys).takeWhile (· ≠ '@') = xs.takeWhile (· ≠ '@') := by
  induction xs with
  | nil => rfl
  | cons x xs ih => by_cases hx : x = '@' <;> simp_all

theorem packageName_packageReference (package : String) (version : Option String) :
    packageName (packageReference package version) = packageName package := by
  cases version with
  | none => rfl
  | some v =>
      have hchars : (package ++ "@" ++ v).toList = package.toList ++ '@' :: v.toList := by simp
      rw [packageReference, packageName, hchars, takeWhile_append_cons_at, packageName]

theorem at_notMem_packageName (s : String) : '@' ∉ (packageName s).toList := by
  intro hmem
  rw [packageName, String.toList_ofList] at hmem
  have hne := List.mem_takeWhile_imp hmem
  simp at hne

theorem packageName_eq_self_iff {s : String} : packageName s = s ↔ '@' ∉ s.toList := by
  constructor
  · intro h hmem
    rw [← h] at hmem
    exact at_notMem_packageName s hmem
  · intro h
    have hall : ∀ c ∈ s.toList, decide (c ≠ '@') = true := fun c hc =>
      decide_eq_true fun e => h (e ▸ hc)
    rw [packageName, List.takeWhile_eq_self_iff.mpr hall, String.ofList_toList]

/-! ## One call -/

/-- What a client wants a job to refer to. -/
structure PackageCall where
  package : String
  version : Option String
deriving DecidableEq, Repr

def PackageCall.reference (r : PackageCall) : String := packageReference r.package r.version

theorem isLeaf_packageReferences : isLeaf (.infrastructure .packageReferences) = true :=
  isLeaf_iff.mpr ⟨reaches_job (t := .infrastructure) (by decide) (by decide), rfl⟩

theorem packageReferences_adjust (h : Reachable catalog W) (hj : W.Holds j.val) (references : List String) :
    let made := adjust W.forest j (.infrastructure .packageReferences) references
    packageReferences made.1 made.2 = references := by
  intro made
  have hvaried := varied_adjust_of_isLeaf (a := .infrastructure .packageReferences) h hj
    isLeaf_packageReferences rfl references
  have hread := hvaried.get?_eq (x := references) isLeaf_packageReferences rfl (Or.inl rfl) (if_pos rfl)
  have hback := Format.read_write (τ := NodeType) (.list .text) references fun _ _ => trivial
  exact congrArg (fun found : Option (List String) => found.getD []) (hread.trans hback)

theorem withPackage_of_mem {r : PackageCall} (h : ∃ s ∈ packageReferences F j, packageName s = r.package) :
    withPackage F j r.package r.version = (.error (.duplicatePackage r.package), F) := by
  have hany : ((packageReferences F j).any fun s => packageName s == r.package) = true := by
    simpa using h
  unfold withPackage
  rw [if_pos hany]

theorem withPackage_of_notMem {r : PackageCall} (h : ¬ ∃ s ∈ packageReferences F j, packageName s = r.package) :
    withPackage F j r.package r.version =
      (.ok (adjust F j (.infrastructure .packageReferences) (packageReferences F j ++ [r.reference])).2,
        (adjust F j (.infrastructure .packageReferences) (packageReferences F j ++ [r.reference])).1) := by
  have hany : ((packageReferences F j).any fun s => packageName s == r.package) ≠ true := by
    simpa using h
  unfold withPackage
  rw [if_neg hany]
  rfl

/-! ## Calls in a row -/

/-- A job, and the calls that have been granted on the way to it. -/
structure Referral where
  forest : Forest NodeType Key
  job : Job
  granted : List PackageCall

namespace Referral

def call (s : Referral) (r : PackageCall) : Referral :=
  match withPackage s.forest s.job r.package r.version with
  | (.ok i, G) => ⟨G, i, s.granted ++ [r]⟩
  | (.error _, G) => ⟨G, s.job, s.granted⟩

/-- Some calls, each on the job of the last one that was granted. -/
def run (F : Forest NodeType Key) (j : Job) (calls : List PackageCall) : Referral :=
  calls.foldl call ⟨F, j, []⟩

/-- Whether a call is refused because the job refers to the package already. -/
def Refuses (s : Referral) (r : PackageCall) : Prop :=
  withPackage s.forest s.job r.package r.version = (.error (.duplicatePackage r.package), s.forest)

def Knows (s : Referral) (r : PackageCall) : Prop := ∃ g ∈ s.granted, g.package = r.package

/-- The job of a client that holds it, with the references of the granted calls behind those of the job `j`. -/
structure Orderly (W : Session NodeType Key) (j : Job) (s : Referral) : Prop where
  reachable : Reachable catalog ⟨s.forest, W.drafts⟩
  holds : Session.Holds ⟨s.forest, W.drafts⟩ s.job.val
  references : packageReferences s.forest s.job =
    packageReferences W.forest j ++ s.granted.map PackageCall.reference

variable {s : Referral} {r : PackageCall}

theorem call_cases (h : s.Orderly W j) (r : PackageCall) :
    ((∃ t ∈ packageReferences s.forest s.job, packageName t = r.package) ∧ s.Refuses r ∧ s.call r = s) ∨
      (¬ ∃ t ∈ packageReferences s.forest s.job, packageName t = r.package) ∧
        ∃ i G, withPackage s.forest s.job r.package r.version = (.ok i, G) ∧
          s.call r = ⟨G, i, s.granted ++ [r]⟩ ∧ Reachable catalog ⟨G, W.drafts⟩ ∧
          Session.Holds ⟨G, W.drafts⟩ i.val ∧
          packageReferences G i = packageReferences s.forest s.job ++ [r.reference] := by
  by_cases hmem : ∃ t ∈ packageReferences s.forest s.job, packageName t = r.package
  · have hrefused := withPackage_of_mem hmem
    refine Or.inl ⟨hmem, hrefused, ?_⟩
    rw [call, hrefused]
  · have hgranted := withPackage_of_notMem hmem
    have hadds := Adds.adjust h.reachable.orderly h.holds (.infrastructure .packageReferences)
      (packageReferences s.forest s.job ++ [r.reference])
    have hread := packageReferences_adjust h.reachable h.holds
      (packageReferences s.forest s.job ++ [r.reference])
    refine Or.inr ⟨hmem, _, _, hgranted, ?_, hadds.reachable h.reachable, ?_, hread⟩
    · rw [call, hgranted]
    · exact (hadds.new_of_mem (List.mem_singleton.mpr rfl)).holds h.reachable.orderly rfl

/-- **A call keeps a referral orderly.** -/
theorem Orderly.call (h : s.Orderly W j) (r : PackageCall) : (s.call r).Orderly W j := by
  rcases call_cases h r with ⟨-, -, hs⟩ | ⟨-, i, G, -, hs, hreach, hheld, hreferences⟩
  · rw [hs]
    exact h
  · rw [hs]
    refine ⟨hreach, hheld, ?_⟩
    rw [hreferences, h.references, List.map_append, List.append_assoc]
    rfl

theorem orderly_run (h : Reachable catalog W) (hj : W.Holds j.val) (calls : List PackageCall) :
    (run W.forest j calls).Orderly W j :=
  List.foldlRecOn calls _ ⟨h, hj, (List.append_nil _).symm⟩ fun _ hs r _ => hs.call r

theorem Orderly.exists_reference_iff (h : s.Orderly W j) (hnone : packageReferences W.forest j = []) :
    (∃ t ∈ packageReferences s.forest s.job, packageName t = r.package) ↔
      ∃ g ∈ s.granted, packageName g.package = r.package := by
  rw [h.references, hnone, List.nil_append]
  simp only [List.mem_map, exists_exists_and_eq_and, PackageCall.reference, packageName_packageReference]

/-- **A call is refused just in case a granted name is cut to its name.** -/
theorem Orderly.refuses_iff (h : s.Orderly W j) (hnone : packageReferences W.forest j = []) :
    s.Refuses r ↔ ∃ g ∈ s.granted, packageName g.package = r.package := by
  rw [← h.exists_reference_iff hnone]
  rcases call_cases h r with ⟨hmem, hrefused, -⟩ | ⟨hmem, i, G, hgranted, -⟩
  · exact iff_of_true hrefused hmem
  · refine iff_of_false ?_ hmem
    rw [Refuses, hgranted]
    exact fun he => nomatch he

/-- Whether what the job makes of the granted names deceives it about a call: the name of the call has been
granted, but has an at sign and is not found; or it has not been granted, but another one is cut to it. -/
def Deceives (s : Referral) (r : PackageCall) : Prop :=
  s.Knows r ∧ '@' ∈ r.package.toList ∨ ¬ s.Knows r ∧ ∃ g ∈ s.granted, packageName g.package = r.package

theorem refuses_iff_knows_iff (h : s.Refuses r ↔ ∃ g ∈ s.granted, packageName g.package = r.package) :
    (s.Refuses r ↔ s.Knows r) ↔ ¬ s.Deceives r := by
  -- A name with an at sign is not what any name is cut to, and a name without one is cut to itself.
  have hcut : '@' ∈ r.package.toList → ¬ ∃ g ∈ s.granted, packageName g.package = r.package := by
    rintro hat ⟨g, -, hg⟩
    exact at_notMem_packageName g.package (hg ▸ hat)
  have hself : s.Knows r → '@' ∉ r.package.toList → ∃ g ∈ s.granted, packageName g.package = r.package := by
    rintro ⟨g, hg, he⟩ hat
    exact ⟨g, hg, by rw [he]; exact packageName_eq_self_iff.mpr hat⟩
  rw [h, Deceives]
  by_cases hknown : s.Knows r <;> by_cases hat : '@' ∈ r.package.toList <;> simp_all

end Referral

/-- What comes of one more call `r` after some calls on the job `j`. -/
structure Referred (F : Forest NodeType Key) (j : Job) (calls : List PackageCall) (r : PackageCall) : Prop where
  references :
    let s := Referral.run F j calls
    packageReferences s.forest s.job = s.granted.map PackageCall.reference
  refuses_iff :
    let s := Referral.run F j calls
    s.Refuses r ↔ ∃ g ∈ s.granted, packageName g.package = r.package
  grants :
    let s := Referral.run F j calls
    ¬ s.Refuses r → ∃ i G, withPackage s.forest s.job r.package r.version = (.ok i, G) ∧
      packageReferences G i = packageReferences s.forest s.job ++ [r.reference]
  /-- A call is refused just in case its package has been granted, unless the names deceive. -/
  faithful_iff :
    let s := Referral.run F j calls
    (s.Refuses r ↔ s.Knows r) ↔ ¬ s.Deceives r
  plain :
    let s := Referral.run F j calls
    '@' ∉ r.package.toList → (∀ g ∈ s.granted, '@' ∉ g.package.toList) → (s.Refuses r ↔ s.Knows r)

/-- **A package is refused if a name that was granted is cut to its name, and a granted call adds one
reference.** -/
theorem referred_of_calls (hJ : JobReachable J) (hj : J.Holds j.val)
    (hnone : packageReferences J.forest j = []) (calls : List PackageCall) (r : PackageCall) :
    Referred J.forest j calls r := by
  have h := Referral.orderly_run hJ.reachable hj calls
  have hrefuses := h.refuses_iff hnone (r := r)
  have hfaithful := Referral.refuses_iff_knows_iff hrefuses
  constructor
  case references =>
    show packageReferences _ _ = _
    rw [h.references, hnone, List.nil_append]
  case refuses_iff => exact hrefuses
  case grants =>
    intro s hnot
    rcases Referral.call_cases h r with ⟨-, hrefused, -⟩ | ⟨-, i, G, hgranted, -, -, -, hreferences⟩
    · exact absurd hrefused hnot
    · exact ⟨i, G, hgranted, hreferences⟩
  case faithful_iff => exact hfaithful
  case plain =>
    intro s hat hgranted
    refine hfaithful.mpr ?_
    rintro (⟨-, hmem⟩ | ⟨hunknown, g, hg, he⟩)
    · exact hat hmem
    · refine hunknown ⟨g, hg, ?_⟩
      rwa [packageName_eq_self_iff.mpr (hgranted g hg)] at he

theorem referred_pinned :
    (JobReachable Mutator.tuned ∧ Mutator.tuned.Holds Mutator.fast.val ∧
      packageReferences Mutator.tuned.forest Mutator.fast = []) ∧
      Referred Mutator.tuned.forest Mutator.fast
        [⟨"engine", some "1.0"⟩, ⟨"engine", some "2.0"⟩, ⟨"probe", none⟩] ⟨"probe", some "0.3"⟩ := by
  have hheld : Mutator.tuned.Holds Mutator.fast.val := by decide +kernel
  have hnone : packageReferences Mutator.tuned.forest Mutator.fast = [] := by decide +kernel
  exact ⟨⟨Mutator.jobReachable_tuned, hheld, hnone⟩,
    referred_of_calls Mutator.jobReachable_tuned hheld hnone _ _⟩

/-- A name that starts with an at sign is granted a second time; and a name that goes on behind an at sign
stands in the way of the one that ends there. -/
theorem refuses_ne_knows :
    let marked := Referral.run Mutator.tuned.forest Mutator.fast [⟨"@scope/pkg", some "1.0"⟩]
    let aliased := Referral.run Mutator.tuned.forest Mutator.fast [⟨"engine@next", none⟩]
    (JobReachable Mutator.tuned ∧ Mutator.tuned.Holds Mutator.fast.val ∧
      packageReferences Mutator.tuned.forest Mutator.fast = []) ∧
      (marked.Knows ⟨"@scope/pkg", some "2.0"⟩ ∧ ¬ marked.Refuses ⟨"@scope/pkg", some "2.0"⟩) ∧
      ¬ aliased.Knows ⟨"engine", some "1.0"⟩ ∧ aliased.Refuses ⟨"engine", some "1.0"⟩ := by
  intro marked aliased
  have hheld : Mutator.tuned.Holds Mutator.fast.val := by decide +kernel
  have hnone : packageReferences Mutator.tuned.forest Mutator.fast = [] := by decide +kernel
  have hmarked : marked.granted = [⟨"@scope/pkg", some "1.0"⟩] := by decide +kernel
  have haliased : aliased.granted = [⟨"engine@next", none⟩] := by decide +kernel
  have horderly := Referral.orderly_run Mutator.jobReachable_tuned.reachable hheld
  refine ⟨⟨Mutator.jobReachable_tuned, hheld, hnone⟩, ⟨?_, ?_⟩, ?_, ?_⟩
  · rw [Referral.Knows, hmarked]
    decide
  · rw [(horderly _).refuses_iff hnone, hmarked]
    decide +kernel
  · rw [Referral.Knows, haliased]
    decide
  · rw [(horderly _).refuses_iff hnone, haliased]
    decide +kernel

end Job

end LayeredConfig
