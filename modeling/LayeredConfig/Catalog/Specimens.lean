import LayeredConfig.Catalog.NodeType
import LayeredConfig.Format

/-!
# Fields of the specimens

What the specimen types declare, in the order of declaration. The order matters once: two specimen fields
are both called `Alpha`.
-/

namespace LayeredConfig

inductive SpecimenField where
  | alpha
  | beta
  | gamma
  | name
  | pinned
  | secret
  | leaf
  | tags
  | matrix
  | ratio
  | span
  | wide
  | doubled
  | picky
  | liar
  | veiled
  | glued
  /-- Named like `alpha` and of the same type, but listed by no type. -/
  | unlistedAlpha
  | first
  | second
  | title
  | label
  | left
  | right
  | bag
  | anchor
  | extra
  | note
deriving DecidableEq, Repr

namespace SpecimenField

def all : List SpecimenField :=
  [alpha, beta, gamma, name, pinned, secret, leaf, tags, matrix, ratio, span, wide, doubled, picky, liar,
    veiled, glued, unlistedAlpha, first, second, title, label, left, right, bag, anchor, extra, note]

def text : SpecimenField → String
  | alpha => "Alpha"
  | beta => "Beta"
  | gamma => "Gamma"
  | name => "Name"
  | pinned => "Pinned"
  | secret => "Secret"
  | leaf => "Leaf"
  | tags => "Tags"
  | matrix => "Matrix"
  | ratio => "Ratio"
  | span => "Span"
  | wide => "Wide"
  | doubled => "Doubled"
  | picky => "Picky"
  | liar => "Liar"
  | veiled => "Veiled"
  | glued => "Glued"
  | unlistedAlpha => "Alpha"
  | first => "First"
  | second => "Second"
  | title => "Title"
  | label => "Label"
  | left => "Left"
  | right => "Right"
  | bag => "Bag"
  | anchor => "Anchor"
  | extra => "Extra"
  | note => "Note"

def declaring : SpecimenField → NodeType
  | alpha | beta | gamma | unlistedAlpha => .testLeaf
  | name | pinned | secret | leaf => .testParent
  | tags | matrix | ratio | span | wide | doubled | picky | liar | veiled | glued => .extra
  | first | second | title => .duo
  | label | left | right => .tree
  | bag | anchor | extra | note => .holder

def format : SpecimenField → Format NodeType
  | alpha | pinned | doubled | liar | glued | unlistedAlpha => .int32
  | wide => .int64
  | gamma | veiled => .bool
  | beta | name | secret | picky | title | label | note => .text
  | ratio => .float
  | span => .span
  | tags => .list .text
  | matrix => .list (.list .int32)
  | leaf | first | second => .node .testLeaf
  | left | right => .node .tree
  | bag => .node .bag
  | anchor => .node .testParent
  | extra => .node .extra

def sticky : SpecimenField → Bool
  | pinned | veiled | glued | anchor => true
  | _ => false

def hidden : SpecimenField → Bool
  | secret | veiled => true
  | _ => false

end SpecimenField

end LayeredConfig
