import LayeredConfig.Format

/-!
# Vocabularies

A vocabulary is a type whose finitely many members have labels, so that they can be stored as symbols: the
platforms, code generators, strategies and the like that jobs are described with.
-/

namespace LayeredConfig

/-- A type whose members are stored as symbols. -/
class Vocabulary (α : Type) where
  title : String
  members : List α
  label : α → String

namespace Vocabulary

variable (α : Type) [Vocabulary α]

/-- The enumeration that a vocabulary is stored as. -/
def enumeration : Enumeration := ⟨title α, (members : List α).map label⟩

variable {α}

def symbol (a : α) : Symbol := ⟨title α, label a⟩

def ofLabel? (s : String) : Option α := members.find? fun a => label a == s

end Vocabulary

/-- The architecture that a benchmark is run on. -/
inductive Platform where
  | anyCpu
  | x86
  | x64
  | arm
  | arm64
  | wasm
  | s390x
  | loongArch64
deriving DecidableEq, Repr

instance : Vocabulary Platform where
  title := "Platform"
  members := [.anyCpu, .x86, .x64, .arm, .arm64, .wasm, .s390x, .loongArch64]
  label
    | .anyCpu => "AnyCpu"
    | .x86 => "X86"
    | .x64 => "X64"
    | .arm => "Arm"
    | .arm64 => "Arm64"
    | .wasm => "Wasm"
    | .s390x => "S390x"
    | .loongArch64 => "LoongArch64"

/-- The code generator of the benchmarked process. -/
inductive Jit where
  | legacyJit
  | ryuJit
  | llvm
deriving DecidableEq, Repr

instance : Vocabulary Jit where
  title := "Jit"
  members := [.legacyJit, .ryuJit, .llvm]
  label
    | .legacyJit => "LegacyJit"
    | .ryuJit => "RyuJit"
    | .llvm => "Llvm"

/-- How the engine drives a benchmark. -/
inductive RunStrategy where
  | throughput
  | coldStart
  | monitoring
deriving DecidableEq, Repr

instance : Vocabulary RunStrategy where
  title := "RunStrategy"
  members := [.throughput, .coldStart, .monitoring]
  label
    | .throughput => "Throughput"
    | .coldStart => "ColdStart"
    | .monitoring => "Monitoring"

/-- Which measurements count as outliers. -/
inductive OutlierMode where
  | dontRemove
  | removeUpper
  | removeLower
  | removeAll
deriving DecidableEq, Repr

instance : Vocabulary OutlierMode where
  title := "OutlierMode"
  members := [.dontRemove, .removeUpper, .removeLower, .removeAll]
  label
    | .dontRemove => "DontRemove"
    | .removeUpper => "RemoveUpper"
    | .removeLower => "RemoveLower"
    | .removeAll => "RemoveAll"

/-- A performance counter of the processor. -/
inductive HardwareCounter where
  | timer
  | instructionRetired
  | totalCycles
  | cacheMisses
  | branchInstructions
  | branchMispredictions
  | llcReference
  | llcMisses
deriving DecidableEq, Repr

instance : Vocabulary HardwareCounter where
  title := "HardwareCounter"
  members := [.timer, .instructionRetired, .totalCycles, .cacheMisses, .branchInstructions,
    .branchMispredictions, .llcReference, .llcMisses]
  label
    | .timer => "Timer"
    | .instructionRetired => "InstructionRetired"
    | .totalCycles => "TotalCycles"
    | .cacheMisses => "CacheMisses"
    | .branchInstructions => "BranchInstructions"
    | .branchMispredictions => "BranchMispredictions"
    | .llcReference => "LlcReference"
    | .llcMisses => "LlcMisses"

end LayeredConfig
