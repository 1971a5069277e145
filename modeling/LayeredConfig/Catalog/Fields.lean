import LayeredConfig.Catalog.NodeType
import LayeredConfig.Vocabulary

/-!
# Fields of the job types

What each of the types that jobs are made of declares, with the names and formats of the fields. Every
list `all` is in the order of declaration.
-/

namespace LayeredConfig

/-- The slots of a job. -/
inductive JobField where
  | accuracy
  | environment
  | infrastructure
  | flags
  | run
deriving DecidableEq, Repr

namespace JobField

def all : List JobField := [accuracy, environment, infrastructure, flags, run]

def name : JobField → String
  | accuracy => "Accuracy"
  | environment => "Environment"
  | infrastructure => "Infrastructure"
  | flags => "Meta"
  | run => "Run"

def format : JobField → Format NodeType
  | accuracy => .node .accuracy
  | environment => .node .environment
  | infrastructure => .node .infrastructure
  | flags => .node .flags
  | run => .node .run

end JobField

/-- Accuracy targets and the treatment of outliers. -/
inductive AccuracyField where
  | maxRelativeError
  | maxAbsoluteError
  | minIterationTime
  | minInvokeCount
  | evaluateOverhead
  | outlierMode
  | analyzeLaunchVariance
deriving DecidableEq, Repr

namespace AccuracyField

def all : List AccuracyField :=
  [maxRelativeError, maxAbsoluteError, minIterationTime, minInvokeCount, evaluateOverhead, outlierMode,
    analyzeLaunchVariance]

def name : AccuracyField → String
  | maxRelativeError => "MaxRelativeError"
  | maxAbsoluteError => "MaxAbsoluteError"
  | minIterationTime => "MinIterationTime"
  | minInvokeCount => "MinInvokeCount"
  | evaluateOverhead => "EvaluateOverhead"
  | outlierMode => "OutlierMode"
  | analyzeLaunchVariance => "AnalyzeLaunchVariance"

def format : AccuracyField → Format NodeType
  | maxRelativeError => .float
  | maxAbsoluteError => .span
  | minIterationTime => .span
  | minInvokeCount => .int32
  | evaluateOverhead => .bool
  | outlierMode => .symbol (Vocabulary.enumeration OutlierMode)
  | analyzeLaunchVariance => .bool

end AccuracyField

/-- The environment of the benchmarked process. -/
inductive EnvironmentField where
  | affinity
  | environmentVariables
  | jit
  | platform
  | powerPlanMode
  | runtime
  | gc
deriving DecidableEq, Repr

namespace EnvironmentField

def all : List EnvironmentField :=
  [affinity, environmentVariables, jit, platform, powerPlanMode, runtime, gc]

def name : EnvironmentField → String
  | affinity => "Affinity"
  | environmentVariables => "EnvironmentVariables"
  | jit => "Jit"
  | platform => "Platform"
  | powerPlanMode => "PowerPlanMode"
  | runtime => "Runtime"
  | gc => "Gc"

def format : EnvironmentField → Format NodeType
  | affinity => .int64
  | environmentVariables => .list .assignment
  | jit => .symbol (Vocabulary.enumeration Jit)
  | platform => .symbol (Vocabulary.enumeration Platform)
  | powerPlanMode => .text
  | runtime => .text
  | gc => .node .gc

end EnvironmentField

/-- The settings of the garbage collector. -/
inductive GcField where
  | allowVeryLargeObjects
  | concurrent
  | cpuGroups
  | force
  | heapAffinitizeMask
  | heapCount
  | noAffinitize
  | retainVm
  | server
deriving DecidableEq, Repr

namespace GcField

def all : List GcField :=
  [allowVeryLargeObjects, concurrent, cpuGroups, force, heapAffinitizeMask, heapCount, noAffinitize,
    retainVm, server]

def name : GcField → String
  | allowVeryLargeObjects => "AllowVeryLargeObjects"
  | concurrent => "Concurrent"
  | cpuGroups => "CpuGroups"
  | force => "Force"
  | heapAffinitizeMask => "HeapAffinitizeMask"
  | heapCount => "HeapCount"
  | noAffinitize => "NoAffinitize"
  | retainVm => "RetainVm"
  | server => "Server"

def format : GcField → Format NodeType
  | heapAffinitizeMask => .int64
  | heapCount => .int32
  | _ => .bool

end GcField

/-- What builds and runs the benchmark. -/
inductive InfrastructureField where
  | toolchain
  | clock
  | engineFactory
  | buildConfiguration
  | arguments
  | packageReferences
  | diagnoser
deriving DecidableEq, Repr

namespace InfrastructureField

def all : List InfrastructureField :=
  [toolchain, clock, engineFactory, buildConfiguration, arguments, packageReferences, diagnoser]

def name : InfrastructureField → String
  | toolchain => "Toolchain"
  | clock => "Clock"
  | engineFactory => "EngineFactory"
  | buildConfiguration => "BuildConfiguration"
  | arguments => "Arguments"
  | packageReferences => "PackageReferences"
  | diagnoser => "Diagnoser"

def format : InfrastructureField → Format NodeType
  | arguments => .list .text
  | packageReferences => .list .text
  | diagnoser => .node .diagnoser
  | _ => .text

end InfrastructureField

/-- What is diagnosed during a run. -/
inductive DiagnoserField where
  | memoryDiagnoser
  | threadingDiagnoser
  | exceptionDiagnoser
  | disassemblyMaxDepth
  | hardwareCounters
deriving DecidableEq, Repr

namespace DiagnoserField

def all : List DiagnoserField :=
  [memoryDiagnoser, threadingDiagnoser, exceptionDiagnoser, disassemblyMaxDepth, hardwareCounters]

def name : DiagnoserField → String
  | memoryDiagnoser => "MemoryDiagnoser"
  | threadingDiagnoser => "ThreadingDiagnoser"
  | exceptionDiagnoser => "ExceptionDiagnoser"
  | disassemblyMaxDepth => "DisassemblyMaxDepth"
  | hardwareCounters => "HardwareCounters"

def format : DiagnoserField → Format NodeType
  | disassemblyMaxDepth => .int32
  | hardwareCounters => .list (.symbol (Vocabulary.enumeration HardwareCounter))
  | _ => .bool

end DiagnoserField

/-- How a job takes part in a set of jobs. -/
inductive FlagField where
  | baseline
  | isMutator
  | isDefault
deriving DecidableEq, Repr

namespace FlagField

def all : List FlagField := [baseline, isMutator, isDefault]

def name : FlagField → String
  | baseline => "Baseline"
  | isMutator => "IsMutator"
  | isDefault => "IsDefault"

/-- The marks of a single job are sticky. -/
def sticky : FlagField → Bool
  | baseline => false
  | isMutator => true
  | isDefault => true

end FlagField

/-- How many launches, warm-ups and iterations a benchmark gets. -/
inductive RunField where
  | runStrategy
  | launchCount
  | warmupCount
  | iterationCount
  | iterationTime
  | invocationCount
  | unrollFactor
  | minIterationCount
  | maxIterationCount
  | minWarmupIterationCount
  | maxWarmupIterationCount
  | memoryRandomization
deriving DecidableEq, Repr

namespace RunField

def all : List RunField :=
  [runStrategy, launchCount, warmupCount, iterationCount, iterationTime, invocationCount, unrollFactor,
    minIterationCount, maxIterationCount, minWarmupIterationCount, maxWarmupIterationCount,
    memoryRandomization]

def name : RunField → String
  | runStrategy => "RunStrategy"
  | launchCount => "LaunchCount"
  | warmupCount => "WarmupCount"
  | iterationCount => "IterationCount"
  | iterationTime => "IterationTime"
  | invocationCount => "InvocationCount"
  | unrollFactor => "UnrollFactor"
  | minIterationCount => "MinIterationCount"
  | maxIterationCount => "MaxIterationCount"
  | minWarmupIterationCount => "MinWarmupIterationCount"
  | maxWarmupIterationCount => "MaxWarmupIterationCount"
  | memoryRandomization => "MemoryRandomization"

def format : RunField → Format NodeType
  | runStrategy => .symbol (Vocabulary.enumeration RunStrategy)
  | iterationTime => .span
  | invocationCount => .int64
  | memoryRandomization => .bool
  | _ => .int32

end RunField

end LayeredConfig
