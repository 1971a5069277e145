import LayeredConfig.Catalog
import LayeredConfig.Forest.Draft

/-!
# Presets

Presets are frozen nodes that are there from the start: an empty one of every node type, and the usual run
modes, environments, infrastructures and jobs. `shelf` plants them all into one forest; everything else
grows beside them.
-/

namespace LayeredConfig

/-- The frozen nodes that are there from the start. -/
inductive Preset where
  | empty (t : NodeType)
  | dryRun
  | shortRun
  | mediumRun
  | longRun
  | veryLongRun
  | legacyJitX86
  | legacyJitX64
  | ryuJitX86
  | ryuJitX64
  | inProcess
  | defaultJob
  | dryJob
  | shortRunJob
  | mediumRunJob
  | longRunJob
  | veryLongRunJob
  | legacyJitX86Job
  | legacyJitX64Job
  | ryuJitX86Job
  | ryuJitX64Job
  | inProcessJob
deriving DecidableEq, Repr

namespace Preset

def type : Preset → NodeType
  | empty t => t
  | dryRun | shortRun | mediumRun | longRun | veryLongRun => .run
  | legacyJitX86 | legacyJitX64 | ryuJitX86 | ryuJitX64 => .environment
  | inProcess => .infrastructure
  | _ => .job

/-- All presets; what a preset is made of stands before it. -/
def all : List Preset :=
  [empty .bag, empty .job, empty .accuracy, empty .environment, empty .gc, empty .infrastructure,
    empty .diagnoser, empty .flags, empty .run, empty .testLeaf, empty .testParent, empty .extra, empty .duo,
    empty .tree, empty .holder, dryRun, shortRun, mediumRun, longRun, veryLongRun, legacyJitX86,
    legacyJitX64, ryuJitX86, ryuJitX64, inProcess, defaultJob, dryJob, shortRunJob, mediumRunJob, longRunJob,
    veryLongRunJob, legacyJitX86Job, legacyJitX64Job, ryuJitX86Job, ryuJitX64Job, inProcessJob]

/-- A step that stores a value under a leaf. -/
abbrev Step := DraftStep catalog

/-- The steps to a run mode with its three counts. -/
def runSteps (id : String) (launches warmups iterations : Int32) : List Step :=
  [.id id, .value (.run .launchCount) launches, .value (.run .warmupCount) warmups,
    .value (.run .iterationCount) iterations]

/-- The step that stores a run strategy. -/
def strategyStep (s : RunStrategy) : Step := .raw (.run .runStrategy) (.symbol (Vocabulary.symbol s))

/-- The steps to an environment with a code generator and a platform. -/
def environmentSteps (id : String) (jit : Jit) (platform : Platform) : List Step :=
  [.id id, .raw (.environment .jit) (.symbol (Vocabulary.symbol jit)),
    .raw (.environment .platform) (.symbol (Vocabulary.symbol platform))]

/-- The steps to a preset, where `node` finds the presets made before. -/
def steps (node : Preset → Node NodeType) : Preset → List Step
  | empty _ => []
  | dryRun =>
    runSteps "Dry" 1 1 1 ++ [strategyStep .coldStart, .value (.run .unrollFactor) (1 : Int32)]
  | shortRun => runSteps "Short" 1 3 3
  | mediumRun => runSteps "Medium" 2 10 15
  | longRun => runSteps "Long" 3 15 100
  | veryLongRun => runSteps "VeryLong" 4 30 500
  | legacyJitX86 => environmentSteps "LegacyJitX86" .legacyJit .x86
  | legacyJitX64 => environmentSteps "LegacyJitX64" .legacyJit .x64
  | ryuJitX86 => environmentSteps "RyuJitX86" .ryuJit .x86
  | ryuJitX64 => environmentSteps "RyuJitX64" .ryuJit .x64
  | inProcess => [.id "InProcess", .raw (.infrastructure .toolchain) (.text "in-process")]
  | defaultJob => [.id defaultText]
  | dryJob => [.id "Dry", .merge (node dryRun)]
  | shortRunJob => [.id "ShortRun", .merge (node shortRun)]
  | mediumRunJob => [.id "MediumRun", .merge (node mediumRun)]
  | longRunJob => [.id "LongRun", .merge (node longRun)]
  | veryLongRunJob => [.id "VeryLongRun", .merge (node veryLongRun)]
  | legacyJitX86Job => [.id "LegacyJitX86", .merge (node legacyJitX86)]
  | legacyJitX64Job => [.id "LegacyJitX64", .merge (node legacyJitX64)]
  | ryuJitX86Job => [.id "RyuJitX86", .merge (node ryuJitX86)]
  | ryuJitX64Job => [.id "RyuJitX64", .merge (node ryuJitX64)]
  | inProcessJob => [.id "InProcess", .merge (node inProcess)]

end Preset

/-- A forest, and the presets planted in it. -/
structure Shelf where
  forest : Forest NodeType Key
  planted : List (Preset × Node NodeType)

namespace Shelf

def node (s : Shelf) (p : Preset) : Node NodeType := (s.planted.lookup p).getD ⟨0, p.type⟩

def plant (s : Shelf) (p : Preset) : Shelf :=
  let (forest, n) := s.forest.draftFrozen catalog p.type (p.steps s.node)
  ⟨forest, (p, n) :: s.planted⟩

end Shelf

/-- The forest that everything starts from, with all presets. -/
def shelf : Shelf := Preset.all.foldl Shelf.plant ⟨.empty, []⟩

def Preset.node (p : Preset) : Node NodeType := shelf.node p

end LayeredConfig
