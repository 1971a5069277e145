import LayeredConfig.Binary64
import LayeredConfig.TimeSpan
import LayeredConfig.Text.Decimal
import LayeredConfig.Text.Quoted

/-!
# Nodes and values

A *node* is named by its serial number and its type; what it holds stands in the forest that it lives in.
A *value* is what a node stores for a characteristic: plain data, or another node. The type `τ` is that of
the node types.
-/

namespace LayeredConfig

/-- A configuration node: its serial number and its type. -/
structure Node (τ : Type) where
  serial : Nat
  type : τ
deriving DecidableEq, Repr

/-- A member of a named enumeration. -/
structure Symbol where
  enumeration : String
  member : String
deriving DecidableEq, Repr

/-- A value. -/
inductive Value (τ : Type) where
  | bool (b : Bool)
  | int (n : Int)
  | float (x : Binary64)
  | text (s : String)
  | span (d : TimeSpan)
  | symbol (s : Symbol)
  | list (items : List (Value τ))
  | node (n : Node τ)
deriving Repr

inductive Kind (τ : Type) where
  | bool
  | int
  | float
  | text
  | span
  | symbol (enumeration : String)
  | list
  | node (type : τ)
deriving DecidableEq, Repr

/-- The name of a kind, where `typeName` names the node types. -/
def Kind.name {τ : Type} (typeName : τ → String) : Kind τ → String
  | bool => "bool"
  | int => "int"
  | float => "float"
  | text => "text"
  | span => "duration"
  | symbol enumeration => enumeration
  | list => "list"
  | node type => typeName type

namespace Value

variable {τ : Type}

def kind : Value τ → Kind τ
  | bool _ => .bool
  | int _ => .int
  | float _ => .float
  | text _ => .text
  | span _ => .span
  | symbol s => .symbol s.enumeration
  | list _ => .list
  | node n => .node n.type

/-- The text that a value holds. -/
def text? : Value τ → Option String
  | text s => some s
  | _ => none

/-- The node that a value is. -/
def node? : Value τ → Option (Node τ)
  | node n => some n
  | _ => none

/-! ## Plain data -/

mutual
/-- Whether a value is plain data: no node is in it. -/
def isData : Value τ → Bool
  | list items => allData items
  | node _ => false
  | _ => true

/-- Whether all of some values are plain data. -/
def allData : List (Value τ) → Bool
  | [] => true
  | v :: vs => v.isData && allData vs
end

/-! ## Equality -/

mutual
/-- Whether two values are equal: numbers as numbers, nodes as nodes, lists element by element. -/
def equals [DecidableEq τ] : Value τ → Value τ → Bool
  | bool a, bool b => a == b
  | int a, int b => a == b
  | float a, float b => a.equals b
  | text a, text b => a == b
  | span a, span b => a == b
  | symbol a, symbol b => a == b
  | list a, list b => equalItems a b
  | node a, node b => a == b
  | _, _ => false

/-- Whether two lists of values are equal element by element. -/
def equalItems [DecidableEq τ] : List (Value τ) → List (Value τ) → Bool
  | [], [] => true
  | a :: as, b :: bs => a.equals b && equalItems as bs
  | _, _ => false
end

/-! ## Display form -/

mutual
/-- The display form of a value, where `nodeName` names the nodes. -/
def display (nodeName : Node τ → String) : Value τ → String
  | bool true => "True"
  | bool false => "False"
  | int n => Int.repr n
  | float x => DecimalStyle.plain.text x
  | text s => s
  | span d => d.text
  | symbol s => s.member
  | list items => "[" ++ ", ".intercalate (displayItems nodeName items) ++ "]"
  | node n => nodeName n

/-- The display forms of some values. -/
def displayItems (nodeName : Node τ → String) : List (Value τ) → List String
  | [] => []
  | v :: vs => v.display nodeName :: displayItems nodeName vs
end

/-- The compact form of a value: the elements of a list without brackets. -/
def summary (nodeName : Node τ → String) : Value τ → String
  | list items => ",".intercalate (displayItems nodeName items)
  | v => v.display nodeName

/-! ## Source form -/

mutual
/-- The source literal of a value, where `typeName` names the node types. -/
def literal (typeName : τ → String) : Value τ → String
  | bool true => "true"
  | bool false => "false"
  | int n => Int.repr n
  | float x => DecimalStyle.literal.text x
  | text s => Quoted.quote s
  | span d => d.literal
  | symbol s => s.enumeration ++ "::" ++ s.member
  | list items => "vec![" ++ ", ".intercalate (literalItems typeName items) ++ "]"
  | node n => typeName n.type ++ "::default()"

/-- The source literals of some values. -/
def literalItems (typeName : τ → String) : List (Value τ) → List String
  | [] => []
  | v :: vs => v.literal typeName :: literalItems typeName vs
end

/-! ## Structural form -/

mutual
/-- The structural form of a value, which shows its constructors; `nodeText` describes the nodes. -/
def structural (nodeText : Node τ → String) : Value τ → String
  | bool true => "Bool(true)"
  | bool false => "Bool(false)"
  | int n => "Int(" ++ Int.repr n ++ ")"
  | float x => "Float(" ++ DecimalStyle.literal.text x ++ ")"
  | text s => "Text(" ++ Quoted.quote s ++ ")"
  | span d => "Duration(" ++ d.fractionalText ++ ")"
  | symbol s =>
    "Symbol(Symbol \x7b kind: " ++ Quoted.quote s.enumeration ++ ", name: " ++ Quoted.quote s.member ++
      " \x7d)"
  | list items => "List([" ++ ", ".intercalate (structuralItems nodeText items) ++ "])"
  | node n => "Node(" ++ nodeText n ++ ")"

/-- The structural forms of some values. -/
def structuralItems (nodeText : Node τ → String) : List (Value τ) → List String
  | [] => []
  | v :: vs => v.structural nodeText :: structuralItems nodeText vs
end

end Value

end LayeredConfig
