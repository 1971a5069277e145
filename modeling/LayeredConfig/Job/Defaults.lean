import LayeredConfig.Catalog
import LayeredConfig.Resolver

/-!
# Default values of jobs

Three tables supply what a job leaves empty: one for the environment and the collector, one for the engine,
one for the infrastructure and the diagnosers. What only a running engine can find out has no default. Two
defaults depend on the host.
-/

namespace LayeredConfig

/-- What the defaults need to know of the host. -/
structure Host where
  platform : Platform
  /-- The mask of all processors. -/
  affinity : Int64

namespace Defaults

/-- A table entry with a fixed value. -/
abbrev Entry := Key × Default NodeType Key

/-- The entry for a content of a field. -/
def constant (k : Key) (x : (catalog.format k).Content) : Entry := (k, .constant ((catalog.format k).write x))

/-- The entry for a member of a vocabulary. -/
def member {α : Type} [Vocabulary α] (k : Key) (a : α) : Entry := (k, .constant (.symbol (Vocabulary.symbol a)))

/-- The strategy of a node. -/
def strategy (F : Forest NodeType Key) (n : Node NodeType) : RunStrategy :=
  match F.value? catalog n (.run .runStrategy) with
  | some (.symbol s) =>
    if s.enumeration = Vocabulary.title RunStrategy then (Vocabulary.ofLabel? s.member).getD .throughput
    else .throughput
  | _ => .throughput

/-- A cold start unrolls nothing. -/
def unrollFactor : RunStrategy → Int32
  | .coldStart => 1
  | _ => 16

/-- Only throughput is measured with the narrow error. -/
def maxRelativeError : RunStrategy → Binary64
  | .throughput => Binary64.ofFloat 0.02
  | _ => Binary64.ofFloat 0.05

/-- Only throughput has outliers removed. -/
def outlierMode : RunStrategy → OutlierMode
  | .throughput => .removeUpper
  | _ => .dontRemove

/-- The defaults of the environment and the collector. -/
def environment (host : Host) : ResolverTable NodeType Key where
  name := "environment"
  entries :=
    [member (.environment .platform) host.platform, member (.environment .jit) Jit.ryuJit,
      constant (.environment .runtime) "host", constant (.environment .affinity) host.affinity,
      constant (.gc .server) false, constant (.gc .concurrent) true, constant (.gc .cpuGroups) false,
      constant (.gc .force) true, constant (.gc .allowVeryLargeObjects) false,
      constant (.gc .retainVm) false, constant (.gc .noAffinitize) false,
      constant (.gc .heapCount) (0 : Int32), constant (.gc .heapAffinitizeMask) (0 : Int64)]

/-- The defaults of the run and accuracy settings. -/
def engine : ResolverTable NodeType Key where
  name := "engine"
  entries :=
    [member (.run .runStrategy) RunStrategy.throughput,
      constant (.run .iterationTime) (TimeSpan.ofMilliseconds 500),
      constant (.run .minIterationCount) (15 : Int32), constant (.run .maxIterationCount) (100 : Int32),
      constant (.run .minWarmupIterationCount) (6 : Int32),
      constant (.run .maxWarmupIterationCount) (50 : Int32), constant (.run .launchCount) (1 : Int32),
      constant (.run .memoryRandomization) false,
      (.run .unrollFactor, .derived fun F n => .int (unrollFactor (strategy F n)).toInt),
      constant (.accuracy .evaluateOverhead) true,
      (.accuracy .maxRelativeError, .derived fun F n => .float (maxRelativeError (strategy F n))),
      constant (.accuracy .minIterationTime) (TimeSpan.ofMilliseconds 500),
      constant (.accuracy .minInvokeCount) (4 : Int32),
      (.accuracy .outlierMode,
        .derived fun F n => .symbol (Vocabulary.symbol (outlierMode (strategy F n)))),
      constant (.accuracy .analyzeLaunchVariance) false]

/-- The defaults of the infrastructure and the diagnosers. -/
def infrastructure : ResolverTable NodeType Key where
  name := "infrastructure"
  entries :=
    [constant (.infrastructure .toolchain) "default", constant (.infrastructure .clock) "stopwatch",
      constant (.infrastructure .engineFactory) "default",
      constant (.infrastructure .buildConfiguration) "Release", constant (.diagnoser .memoryDiagnoser) false,
      constant (.diagnoser .threadingDiagnoser) false, constant (.diagnoser .exceptionDiagnoser) false,
      constant (.diagnoser .disassemblyMaxDepth) (1 : Int32)]

/-- All defaults of jobs. -/
def resolver (host : Host) : Resolver NodeType Key :=
  .chain [.table (environment host), .table engine, .table infrastructure]

end Defaults

end LayeredConfig
