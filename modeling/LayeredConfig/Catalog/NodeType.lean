/-!
# Node types of the catalogue

A *job* bundles one node for each concern of a benchmark run. Beside the types that jobs are made of stand
a few *specimens*: small types that show what jobs have no use for, such as a type with slots of its own
type, two slots of one type, a bag in a slot, a sticky slot, and derived characteristics.
-/

namespace LayeredConfig

inductive NodeType where
  /-- The type that declares the inherited id. -/
  | base
  /-- The bags. -/
  | bag
  | job
  | accuracy
  | environment
  | gc
  | infrastructure
  | diagnoser
  | flags
  | run
  /-- A specimen with three leaves. -/
  | testLeaf
  /-- A specimen with a leaf of every flavour and a slot. -/
  | testParent
  /-- A specimen with the formats and resolutions that jobs do not use. -/
  | extra
  /-- A specimen with two slots of one type. -/
  | duo
  /-- A specimen with two slots of its own type. -/
  | tree
  /-- A specimen with a bag in a slot and a sticky slot. -/
  | holder
deriving DecidableEq, Repr

def NodeType.name : NodeType → String
  | base => "ConfigNode"
  | bag => "PropertyBag"
  | job => "Job"
  | accuracy => "AccuracyMode"
  | environment => "EnvironmentMode"
  | gc => "GcMode"
  | infrastructure => "InfrastructureMode"
  | diagnoser => "DiagnoserMode"
  | flags => "MetaMode"
  | run => "RunMode"
  | testLeaf => "TestLeafMode"
  | testParent => "TestParentMode"
  | extra => "ExtraMode"
  | duo => "DuoMode"
  | tree => "TreeMode"
  | holder => "HolderMode"

def NodeType.isBag : NodeType → Bool
  | bag => true
  | _ => false

end LayeredConfig
