import LayeredConfig.Job

/-!
# Variations of a job

Each function answers a new, unfrozen job: the id of the given job if it stores one, its non-sticky values,
and one change. The given job stays as it is, so that frozen presets can be varied as well.
-/

namespace LayeredConfig

inductive JobFailure where
  | node (e : Failure NodeType Key)
  /-- The mutator has an override of the characteristic already. -/
  | duplicateOverride (mutator : String) (c : Key)
  /-- Sticky characteristics are not overridden. -/
  | stickyOverride (c : Key)
  /-- The job refers to the package already. -/
  | duplicatePackage (package : String)
  | notALeaf (c : Key)
deriving DecidableEq, Repr

namespace JobFailure

def message : JobFailure → String
  | node e => e.message catalog
  | duplicateOverride mutator c => "mutator " ++ mutator ++ " already overrides " ++ catalog.fullName c
  | stickyOverride c => "sticky characteristic " ++ catalog.fullName c ++ " cannot be overridden"
  | duplicatePackage package => "package " ++ package ++ " is already referenced"
  | notALeaf c => catalog.fullName c ++ " is not a leaf characteristic"

def isFrozen : JobFailure → Bool
  | node e => e.isFrozen
  | _ => false

/-- Whether the reason is that a node must not be attached or is attached already. -/
def isOwnershipViolation : JobFailure → Bool
  | node e => e.isOwnershipViolation
  | _ => false

end JobFailure

/-- What an operation on jobs answers, or why it is refused, and the forest after it. -/
abbrev JobOutcome (α : Type) : Type := Except JobFailure α × Forest NodeType Key

namespace Job

variable (F : Forest NodeType Key)

/-- The leaves that have a function of their own to vary them. -/
def adjustable : List Key :=
  [.environment .platform, .environment .jit, .environment .runtime, .environment .affinity,
    .environment .powerPlanMode, .environment .environmentVariables, .gc .server, .gc .concurrent,
    .gc .cpuGroups, .gc .force, .gc .allowVeryLargeObjects, .gc .retainVm, .gc .heapCount, .gc .noAffinitize,
    .gc .heapAffinitizeMask, .run .runStrategy, .run .launchCount, .run .warmupCount,
    .run .minWarmupIterationCount, .run .maxWarmupIterationCount, .run .iterationCount, .run .iterationTime,
    .run .invocationCount, .run .unrollFactor, .run .minIterationCount, .run .maxIterationCount,
    .run .memoryRandomization, .infrastructure .toolchain, .infrastructure .clock,
    .infrastructure .engineFactory, .infrastructure .buildConfiguration, .infrastructure .arguments,
    .diagnoser .memoryDiagnoser, .diagnoser .threadingDiagnoser, .diagnoser .exceptionDiagnoser,
    .diagnoser .disassemblyMaxDepth, .diagnoser .hardwareCounters, .accuracy .maxRelativeError,
    .accuracy .maxAbsoluteError, .accuracy .minIterationTime, .accuracy .minInvokeCount,
    .accuracy .evaluateOverhead, .accuracy .outlierMode, .accuracy .analyzeLaunchVariance, .flags .baseline]

/-- The steps to an equal job: its id, if it stores one, and its non-sticky values. -/
def deriveSteps (j : Job) : List (DraftStep catalog) :=
  (explicitId? F j).toList.map .id ++ [.merge j.val]

def adjust (j : Job) (k : Key) (x : k.Content) : Forest NodeType Key × Job :=
  draft F (deriveSteps F j ++ [.value k x])

def withId (j : Job) (id : String) : Forest NodeType Key × Job := draft F [.id id, .merge j.val]

def environmentVariables (j : Job) : List EnvironmentVariable :=
  let k : Key := .environment .environmentVariables
  let found : Option k.Content := F.get? catalog j.val k
  found.getD []

/-- Some variables with one more at the end, in place of those with its key. -/
def addVariable (vs : List EnvironmentVariable) (v : EnvironmentVariable) : List EnvironmentVariable :=
  (vs.filter fun w => w.key ≠ v.key) ++ [v]

/-- A copy with an environment variable added, in place of those with its key. -/
def withEnvironmentVariable (j : Job) (v : EnvironmentVariable) : Forest NodeType Key × Job :=
  adjust F j (.environment .environmentVariables) (addVariable (environmentVariables F j) v)

abbrev collector : Key := .environment .gc

/-- A copy whose collector settings are a copy of `gc`; refused when `gc` is attached. -/
def withGc (j : Job) (gc : Node NodeType) : JobOutcome Job :=
  let (F, job) := draft F (deriveSteps F j)
  let (F, environment?) := F.childOrNew catalog job.val (.job .environment)
  let environment := environment?.getD job.val
  match F.unfreezeCopy catalog gc with
  | (.error e, F) => (.error (.node e), F)
  | (.ok copy, F) =>
    match F.set catalog environment collector (.node copy) with
    | (.error e, F) => (.error (.node e), F)
    | (.ok (), F) => (.ok job, F)

/-- The package that a reference is to: what stands before its first at sign. -/
def packageName (reference : String) : String := String.ofList (reference.toList.takeWhile (· ≠ '@'))

/-- The reference to a package, with its version if one is given. -/
def packageReference (package : String) : Option String → String
  | some version => package ++ "@" ++ version
  | none => package

/-- The package references of a job. -/
def packageReferences (j : Job) : List String :=
  let k : Key := .infrastructure .packageReferences
  let found : Option k.Content := F.get? catalog j.val k
  found.getD []

/-- A copy with a package reference added; refused when the job refers to the package already. -/
def withPackage (j : Job) (package : String) (version : Option String) : JobOutcome Job :=
  let references := packageReferences F j
  if references.any fun r => packageName r == package then (.error (.duplicatePackage package), F)
  else
    let (F, job) :=
      adjust F j (.infrastructure .packageReferences) (references ++ [packageReference package version])
    (.ok job, F)

/-- A copy that runs the benchmark body once in an iteration. -/
def runOncePerIteration (j : Job) : Forest NodeType Key × Job :=
  draft F (deriveSteps F j ++
    [.value (.run .invocationCount) (1 : Int64), .value (.run .unrollFactor) (1 : Int32)])

/-- A copy with one of the flags set. -/
def mark (j : Job) (f : FlagField) : Forest NodeType Key × Job := adjust F j (.flags f) true

end Job

end LayeredConfig
