import LayeredConfig.Schema.Closure
import LayeredConfig.Store

/-!
# Presentations

A node is shown to its readers as a *view*: its type and its store. From a view follow the values that
readers see, the id of the node, and its presentations as text.

| set style | item            | separator |
|-----------|-----------------|-----------|
| default   | `Name=value`    | `&`       |
| display   | `Name=value`    | `, `      |
| folder    | `Name-value`    | `_`       |
| source    | `Type.Name = v` | `; `      |

The id of a node may come from its display presentation, and the value of the id characteristic from the
id. The recursion ends at once, for sticky characteristics stay out of the display presentation, and the
id is sticky: inside an id, `Schema.shown` takes an identity as it is stored.
-/

namespace LayeredConfig

structure View (τ κ : Type) where
  type : τ
  store : Store κ (Value τ)

/-- What a view shows to derivations. -/
def View.reading {τ κ : Type} [DecidableEq κ] (v : View τ κ) : Reading τ κ := ⟨v.type, v.store.get?⟩

/-- How one value becomes text. -/
inductive ValueStyle where
  | default
  /-- The display form, safe as part of a path. -/
  | folder
  /-- The display form with lists in brief. -/
  | summary
  /-- A source literal. -/
  | source
deriving DecidableEq, Repr

/-- How a whole node becomes text. -/
inductive SetStyle where
  | default
  | display
  | folder
  | source
deriving DecidableEq, Repr

/-- What stands for an absent value, and for the id of a node that has nothing to show. -/
def defaultText : String := "Default"

/-- Whether a character must not stand in a folder name. -/
def isFolderUnsafe (c : Char) : Bool :=
  CharClass.isControl c || c ∈ ['<', '>', ':', '"', '/', '\\', '|', '?', '*', ' ']

/-- A text with every unsafe character replaced by an underscore. -/
def folderSafe (s : String) : String := s.map fun c => if isFolderUnsafe c then '_' else c

/-- How the names of nodes and node types enter a presentation. -/
structure Naming (τ : Type) where
  node : Node τ → String
  type : τ → String

def ValueStyle.text {τ : Type} (style : ValueStyle) (naming : Naming τ) (v : Value τ) : String :=
  match style with
  | .default => v.display naming.node
  | .folder => folderSafe (v.display naming.node)
  | .summary => v.summary naming.node
  | .source => v.literal naming.type

/-- What stands between the items of a presentation. -/
def SetStyle.separator : SetStyle → String
  | .default => "&"
  | .display => ", "
  | .folder => "_"
  | .source => "; "

def SetStyle.values : SetStyle → ValueStyle
  | .default => .default
  | .display => .summary
  | .folder => .folder
  | .source => .source

/-- Whether sticky characteristics take part; they do in source text. -/
def SetStyle.withSticky : SetStyle → Bool
  | .source => true
  | _ => false

namespace Schema

variable {τ κ : Type} [DecidableEq κ] (S : Schema τ κ)

def storedKeys (s : Store κ (Value τ)) : List κ := Sorting.sortBy S.precedes s.keys

/-- The characteristics that have a value, in the order of presentation: those of a bag by name, those of
any other node as its type enumerates them. -/
def withValues (v : View τ κ) : List κ :=
  if S.isBag v.type then S.storedKeys v.store else (S.closure v.type).filter v.store.contains

/-- One item of a presentation, where `value?` is what readers see. -/
def item (style : SetStyle) (naming : Naming τ) (value? : κ → Option (Value τ)) (c : κ) : String :=
  let text := ((value? c).map (style.values.text naming)).getD defaultText
  match style with
  | .default => S.name c ++ "=" ++ text
  | .display => S.name c ++ "=" ++ text
  | .folder => S.name c ++ "-" ++ text
  | .source => S.fullName c ++ " = " ++ text

def items (style : SetStyle) (naming : Naming τ) (value? : κ → Option (Value τ)) (v : View τ κ) :
    List String :=
  ((S.withValues v).filter (S.isPresentable style.withSticky)).map (S.item style naming value?)

/-- The presentation of a view; empty when nothing presentable has a value. -/
def presentWith (style : SetStyle) (naming : Naming τ) (value? : κ → Option (Value τ)) (v : View τ κ) :
    String :=
  style.separator.intercalate (S.items style naming value? v)

/-- What a reader sees under a characteristic, an identity taken as it is stored. -/
def shown (v : View τ κ) (c : κ) : Option (Value τ) :=
  let raw := v.store.get? c
  match (S.characteristic c).resolution with
  | .plain => raw
  | .fallback d => raw.or (some d)
  | .derived f => f v.reading raw
  | .identity => raw

/-- The display presentation that an id is made of. What it shows is plain data (`Schema.showsData`), so that the
naming of nodes does not matter here. -/
def displayText (v : View τ κ) : String :=
  S.presentWith .display ⟨fun n => S.typeName n.type, S.typeName⟩ (S.shown v) v

/-- The name that a stored text gives to a node: none if it is empty or says `Default`. -/
def explicitName? (raw : Option (Value τ)) : Option String :=
  match raw.bind Value.text? with
  | some s => if s = "" ∨ s = defaultText then none else some s
  | none => none

/-- The name of a node: what is stored, else its display presentation, else `Default`. -/
def identityText (v : View τ κ) (raw : Option (Value τ)) : String :=
  match explicitName? raw with
  | some s => s
  | none => if S.displayText v = "" then defaultText else S.displayText v

def idText (v : View τ κ) : String := S.identityText v (v.store.get? S.id)

/-- What becomes of a stored or absent value by the resolution of its characteristic. -/
def resolve (v : View τ κ) (c : κ) (raw : Option (Value τ)) : Option (Value τ) :=
  match (S.characteristic c).resolution with
  | .plain => raw
  | .fallback d => raw.or (some d)
  | .derived f => f v.reading raw
  | .identity => some (.text (S.identityText v raw))

def value? (v : View τ κ) (c : κ) : Option (Value τ) := S.resolve v c (v.store.get? c)

/-- Whether anything presentable has a value, sticky characteristics apart. -/
def hasChanges (v : View τ κ) : Bool := (S.withValues v).any (S.isPresentable false)

def present (style : SetStyle) (naming : Naming τ) (v : View τ κ) : String :=
  S.presentWith style naming (S.value? v) v

/-- The text of one characteristic; `Default` when nothing is stored. -/
def presentOne (style : ValueStyle) (naming : Naming τ) (v : View τ κ) (c : κ) : String :=
  if v.store.contains c then ((S.value? v c).map (style.text naming)).getD defaultText else defaultText

/-! ## What is listed -/

variable {S} {v : View τ κ} {s : Store κ (Value τ)} {k : κ}

theorem mem_storedKeys : k ∈ S.storedKeys s ↔ s.contains k = true := by
  rw [storedKeys, Sorting.mem_sortBy, Store.contains_iff_mem_keys]

/-- What has a value is stored. -/
theorem contains_of_mem_withValues (hk : k ∈ S.withValues v) : v.store.contains k = true := by
  rw [withValues] at hk
  split at hk
  · exact mem_storedKeys.mp hk
  · exact (List.mem_filter.mp hk).2

end Schema

end LayeredConfig
