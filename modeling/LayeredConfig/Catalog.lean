import LayeredConfig.Catalog.Fields
import LayeredConfig.Catalog.Specimens
import LayeredConfig.Presentation

/-!
# The catalogue

The schema of jobs and specimens: every field gets a key, every key a declaration, and every node type the
list of what it declares.
-/

namespace LayeredConfig

/-- The keys of all characteristics. -/
inductive Key where
  /-- The id that every node type but the bags inherits. -/
  | id
  | job (f : JobField)
  | accuracy (f : AccuracyField)
  | environment (f : EnvironmentField)
  | gc (f : GcField)
  | infrastructure (f : InfrastructureField)
  | diagnoser (f : DiagnoserField)
  | flags (f : FlagField)
  | run (f : RunField)
  | specimen (f : SpecimenField)
deriving DecidableEq, Repr

namespace Key

/-- All keys in the order of declaration. -/
def all : List Key :=
  id :: JobField.all.map job ++ AccuracyField.all.map accuracy ++ EnvironmentField.all.map environment ++
    GcField.all.map gc ++ InfrastructureField.all.map infrastructure ++ DiagnoserField.all.map diagnoser ++
    FlagField.all.map flags ++ RunField.all.map run ++ SpecimenField.all.map specimen

theorem mem_all : ∀ k : Key, k ∈ all
  | id => by decide
  | job f => by cases f <;> decide
  | accuracy f => by cases f <;> decide
  | environment f => by cases f <;> decide
  | gc f => by cases f <;> decide
  | infrastructure f => by cases f <;> decide
  | diagnoser f => by cases f <;> decide
  | flags f => by cases f <;> decide
  | run f => by cases f <;> decide
  | specimen f => by cases f <;> decide

/-! ## Derived specimens -/

/-- A stored integer counts twice. -/
def doubled : Option (Value NodeType) → Option (Value NodeType)
  | some (.int n) => some (.int (2 * n))
  | raw => raw

/-- An empty text counts as nothing; and where nothing is stored, the field `wide` is quoted if it has a
value. -/
def picky (r : Reading NodeType Key) : Option (Value NodeType) → Option (Value NodeType)
  | some (.text s) => if s = "" then none else some (.text s)
  | some v => some v
  | none => (r.stored (specimen .wide)).map fun v => .text ("wide:" ++ v.display fun n => n.type.name)

/-- A stored value is shown as a text, which does not fit the format of the field. -/
def liar : Option (Value NodeType) → Option (Value NodeType)
  | some v => some (.text ("lie " ++ v.display fun n => n.type.name))
  | none => none

/-! ## Declarations -/

/-- The declaration of a characteristic that is neither sticky nor hidden, and is seen as it is stored. -/
def ordinary (name : String) (declaring : NodeType) (format : Format NodeType) :
    Characteristic NodeType Key :=
  ⟨name, declaring, format, .plain, false, false⟩

/-- The resolution of a specimen field. -/
def specimenResolution : SpecimenField → Resolution NodeType Key
  | .beta => .fallback (.text "beta")
  | .ratio => .fallback (.float (Binary64.ofFloat 0.5))
  | .span => .fallback (.span (TimeSpan.ofMilliseconds 1500))
  | .doubled => .derived fun _ raw => doubled raw
  | .picky => .derived picky
  | .liar => .derived fun _ raw => liar raw
  | .veiled => .fallback (.bool true)
  | .glued => .fallback (.int 7)
  | _ => .plain

def characteristic : Key → Characteristic NodeType Key
  | id => ⟨"Id", .base, .text, .identity, true, false⟩
  | job f => ordinary f.name .job f.format
  | accuracy f => ordinary f.name .accuracy f.format
  | environment f =>
    let c := ordinary f.name .environment f.format
    match f with
    | .platform => { c with resolution := .fallback (.symbol (Vocabulary.symbol Platform.anyCpu)) }
    | _ => c
  | gc f => ordinary f.name .gc f.format
  | infrastructure f => ordinary f.name .infrastructure f.format
  | diagnoser f => ordinary f.name .diagnoser f.format
  | flags f => { ordinary f.name .flags .bool with sticky := f.sticky }
  | run f =>
    let c := ordinary f.name .run f.format
    match f with
    | .runStrategy => { c with resolution := .fallback (.symbol (Vocabulary.symbol RunStrategy.throughput)) }
    | _ => c
  | specimen f => ⟨f.text, f.declaring, f.format, specimenResolution f, f.sticky, f.hidden⟩

/-- The place of a key in the order of declaration. -/
def number (k : Key) : Nat := all.idxOf k

/-- The keys of slots. -/
def slots : List Key := all.filter fun k => k.characteristic.format.nodeType?.isSome

theorem mem_slots (k : Key) (t : NodeType) (h : k.characteristic.format = .node t) : k ∈ slots := by
  simp [slots, mem_all, h, Format.nodeType?]

/-- The derived fields make integers and texts of integers and texts. -/
theorem isData_of_derived {k : Key} {f : Reading NodeType Key → Option (Value NodeType) → Option (Value NodeType)}
    (hf : k.characteristic.resolution = .derived f) {r : Reading NodeType Key} {v w : Value NodeType}
    (hv : v.isData = true) (h : f r (some v) = some w) : w.isData = true := by
  cases k with
  | specimen s =>
      cases s with
      | doubled =>
          cases hf
          cases v <;> cases h <;> first | rfl | exact hv
      | liar =>
          cases hf
          cases h
          rfl
      | picky =>
          cases hf
          cases v with
          | text s =>
              simp only [picky] at h
              split at h
              · cases h
              · cases h
                rfl
          | _ => cases h; exact hv
      | _ => cases hf
  | environment e => cases e <;> cases hf
  | run e => cases e <;> cases hf
  | _ => cases hf

theorem showsData (k : Key) (hleaf : k.characteristic.format.nodeType? = none) : k.characteristic.ShowsData := by
  have hall : ∀ k ∈ all, k.characteristic.format.nodeType? = none → k.characteristic.format.isData = true := by
    decide
  exact ⟨hall k (mem_all k) hleaf, fun _ hf _ _ _ hv h => isData_of_derived hf hv h⟩

end Key

def NodeType.own : NodeType → List Key
  | base => [.id]
  | bag => []
  | job => JobField.all.map .job
  | accuracy => AccuracyField.all.map .accuracy
  | environment => EnvironmentField.all.map .environment
  | gc => GcField.all.map .gc
  | infrastructure => InfrastructureField.all.map .infrastructure
  | diagnoser => DiagnoserField.all.map .diagnoser
  | flags => FlagField.all.map .flags
  | run => RunField.all.map .run
  | testLeaf => [.specimen .alpha, .specimen .beta, .specimen .gamma]
  | testParent => [.specimen .name, .specimen .pinned, .specimen .secret, .specimen .leaf]
  | extra =>
    [.specimen .wide, .specimen .veiled, .specimen .tags, .specimen .span, .specimen .ratio,
      .specimen .picky, .specimen .matrix, .specimen .liar, .specimen .glued, .specimen .doubled]
  | duo => [.specimen .second, .specimen .title, .specimen .first, .id, .specimen .title]
  | tree => [.specimen .right, .specimen .left, .specimen .label]
  | holder => [.specimen .note, .specimen .extra, .specimen .bag, .specimen .anchor]

theorem NodeType.own_bag (t : NodeType) (h : t.isBag = true) : t.own = [] := by
  cases t <;> first | rfl | cases h

/-- The schema of jobs and specimens. -/
def catalog : Schema NodeType Key where
  typeName := NodeType.name
  isBag := NodeType.isBag
  own := NodeType.own
  own_bag := NodeType.own_bag
  id := .id
  characteristic := Key.characteristic
  id_format := rfl
  id_sticky := rfl
  number := Key.number
  slots := Key.slots
  mem_slots := Key.mem_slots
  showsData := fun k hleaf _ _ => Key.showsData k hleaf

end LayeredConfig
