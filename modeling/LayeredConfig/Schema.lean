import LayeredConfig.Format

/-!
# Schemas

A *schema* is a finite graph of node types. A node type declares *characteristics*; a characteristic whose
format is a node type is a *slot* for a child node, every other one is a *leaf*. The identity of a
characteristic is its key, of type `κ`; two keys may well share one name.

How a reader sees a characteristic is its *resolution*. A derivation reads the node that it is asked of
through a `Reading`, which shows the type of the node and what is stored, and nothing else.
-/

namespace LayeredConfig

/-- What a node shows to a derivation: its type, and the value stored under each key. -/
structure Reading (τ κ : Type) where
  type : τ
  stored : κ → Option (Value τ)

/-- How a stored or absent value becomes the value that a reader sees. -/
inductive Resolution (τ κ : Type) where
  /-- As it is stored. -/
  | plain
  /-- As it is stored, or the given value when nothing is. -/
  | fallback (v : Value τ)
  /-- Computed from the node and what is stored. -/
  | derived (f : Reading τ κ → Option (Value τ) → Option (Value τ))
  /-- The name of the node: the stored text, unless it is empty or says `Default`; then the node's display
  presentation, unless it is empty; then `Default`. -/
  | identity

structure Characteristic (τ κ : Type) where
  name : String
  declaring : τ
  format : Format τ
  resolution : Resolution τ κ
  /-- Sticky characteristics stay where they are: no copy takes them along. -/
  sticky : Bool
  /-- Hidden characteristics are never presented. -/
  hidden : Bool

/-- Whether what is seen of a characteristic is plain data, as it is stored and as a derivation makes it. -/
def Characteristic.ShowsData {τ κ : Type} (c : Characteristic τ κ) : Prop :=
  c.format.isData = true ∧ ∀ f, c.resolution = .derived f → ∀ r v w, v.isData = true → f r (some v) = some w →
    w.isData = true

/-- A finite graph of node types. -/
structure Schema (τ κ : Type) where
  typeName : τ → String
  /-- Whether nodes of the type are bags, which declare nothing and hold anything. -/
  isBag : τ → Bool
  own : τ → List κ
  own_bag : ∀ t, isBag t = true → own t = []
  /-- The characteristic that every type but the bags inherits: the node's id. -/
  id : κ
  characteristic : κ → Characteristic τ κ
  /-- The place of a declaration among all; it orders characteristics of one name. -/
  number : κ → Nat
  id_format : (characteristic id).format = .text
  id_sticky : (characteristic id).sticky = true
  slots : List κ
  mem_slots : ∀ c t, (characteristic c).format = .node t → c ∈ slots
  /-- A leaf that is neither hidden nor sticky is plain data. An id may be made of it, and would have to ask the
  nodes in it for theirs. -/
  showsData : ∀ c, (characteristic c).format.nodeType? = none → (characteristic c).hidden = false →
    (characteristic c).sticky = false → (characteristic c).ShowsData

namespace Schema

variable {τ κ : Type} (S : Schema τ κ)

def name (c : κ) : String := (S.characteristic c).name

/-- The name of a characteristic behind that of its declaring type. -/
def fullName (c : κ) : String := S.typeName (S.characteristic c).declaring ++ "." ++ S.name c

def structuralType (t : τ) : String :=
  "NodeType \x7b name: " ++ Quoted.quote (S.typeName t) ++
    ", property_bag: " ++ (if S.isBag t then "true" else "false") ++ ", .. \x7d"

def format (c : κ) : Format τ := (S.characteristic c).format

/-- The type of the nodes in a slot, `none` for a leaf. -/
def slotType? (c : κ) : Option τ := (S.format c).nodeType?

def isSlot (c : κ) : Bool := (S.slotType? c).isSome

def isSticky (c : κ) : Bool := (S.characteristic c).sticky

/-- Whether a characteristic takes part in presentations: a visible leaf, and sticky ones only on demand. -/
def isPresentable (withSticky : Bool) (c : κ) : Bool :=
  !S.isSlot c && !(S.characteristic c).hidden && (withSticky || !S.isSticky c)

def fallback? (c : κ) : Option (Value τ) :=
  match (S.characteristic c).resolution with
  | .fallback v => some v
  | _ => none

/-- Whether a value may be stored under a characteristic. -/
def accepts [DecidableEq τ] (c : κ) (v : Value τ) : Bool := (S.format c).accepts v

@[simp] theorem slotType?_id : S.slotType? S.id = none := by
  rw [slotType?, format, S.id_format]
  rfl

theorem mem_slots_of_slotType {c : κ} {t : τ} (h : S.slotType? c = some t) : c ∈ S.slots := by
  have : (S.characteristic c).format = .node t := by
    unfold slotType? format at h
    cases hf : (S.characteristic c).format <;> simp_all [Format.nodeType?]
  exact S.mem_slots c t this

/-- What is presented without sticky characteristics is plain data. -/
theorem showsData_of_isPresentable {c : κ} (h : S.isPresentable false c = true) :
    (S.characteristic c).ShowsData := by
  simp only [isPresentable, isSlot, slotType?, Bool.and_eq_true, Bool.not_eq_true', Option.isSome_eq_false_iff,
    Option.isNone_iff_eq_none, Bool.false_or] at h
  exact S.showsData c h.1.1 h.1.2 h.2

/-! ## Orders on characteristics -/

/-- By name, and by place of declaration among those of one name. -/
def precedes (a b : κ) : Bool :=
  ((compare (S.name a) (S.name b)).then (compare (S.number a) (S.number b))).isLE

/-- Leaves before slots, and by name among each. -/
def leafFirst (a b : κ) : Bool :=
  ((compare (S.isSlot a).toNat (S.isSlot b).toNat).then (compare (S.name a) (S.name b))).isLE

end Schema

end LayeredConfig
