import LayeredConfig.Json
import LayeredConfig.Text.DigitOrder

/-!
# Settings of the job layer

Settings are plain values that are handed to the operations that need them: how presented values are
ordered, and how the id of an unnamed job is made. They are read from a JSON object, whose unknown members
are ignored, or from a JSON array that lists the members in order; what is missing keeps its default.
-/

namespace LayeredConfig

/-- How presented values are ordered: by code point, or with runs of digits compared by value. -/
inductive OrderPolicy where
  | ordinal
  | numeric
deriving DecidableEq, Repr

namespace OrderPolicy

def compareTexts : OrderPolicy → String → String → Ordering
  | ordinal, x, y => compare x y
  | numeric, x, y => DigitOrder.compareTexts x y

def key : OrderPolicy → String
  | ordinal => "ordinal"
  | numeric => "numeric"

def ofKey? (s : String) : Option OrderPolicy :=
  if s = "ordinal" then some ordinal else if s = "numeric" then some numeric else none

theorem ofKey?_key (p : OrderPolicy) : ofKey? p.key = some p := by cases p <;> decide

end OrderPolicy

structure Settings where
  /-- The ordering of presented values. -/
  order : OrderPolicy
  /-- What a generated id begins with. -/
  unnamedStem : String
  /-- How many letters a generated id ends in. -/
  suffixLength : Nat
  /-- The id of an unnamed job that has no presentable value. -/
  defaultName : String
deriving DecidableEq, Repr

namespace Settings

/-- The settings that hold where nothing else is said. -/
def default : Settings := ⟨.ordinal, "Unnamed", 6, "DefaultJob"⟩

/-! ## The written form -/

inductive Member where
  | order
  | unnamedStem
  | suffixLength
  | defaultName
deriving DecidableEq, Repr

/-- The members in the order in which they are written. -/
def Member.all : List Member := [order, unnamedStem, suffixLength, defaultName]

def Member.key : Member → String
  | order => "order_policy"
  | unnamedStem => "unnamed_prefix"
  | suffixLength => "id_suffix_len"
  | defaultName => "default_job_name"

def Member.ofKey? (s : String) : Option Member := all.find? (·.key == s)

/-- The text of the settings: an object with all members. -/
def toJson (s : Settings) : String :=
  Json.prettyObject <| Member.all.map fun m =>
    (m.key,
      match m with
      | .order => Json.quote s.order.key
      | .unnamedStem => Json.quote s.unnamedStem
      | .suffixLength => s.suffixLength.repr
      | .defaultName => Json.quote s.defaultName)

/-- Reads a policy: its name, or an object whose only key is the name, with the value null. -/
def policy? : Json → Option OrderPolicy
  | .text (some s) => OrderPolicy.ofKey? s
  | .object [(some s, .null)] => OrderPolicy.ofKey? s
  | _ => none

def text? : Json → Option String
  | .text content => content
  | _ => none

/-- Reads a count: digits alone, of a number that 64 bits hold. -/
def count? : Json → Option Nat
  | .number digits =>
    if digits.toList.all Char.isDigit then
      let n := digits.toList.foldl (fun n c => n * 10 + (c.toNat - '0'.toNat)) 0
      if n < UInt64.size then some n else none
    else none
  | _ => none

/-- Sets one member from its written value. -/
def setMember? (s : Settings) (m : Member) (v : Json) : Option Settings :=
  match m with
  | .order => (policy? v).map fun p => { s with order := p }
  | .unnamedStem => (text? v).map fun t => { s with unnamedStem := t }
  | .suffixLength => (count? v).map fun n => { s with suffixLength := n }
  | .defaultName => (text? v).map fun t => { s with defaultName := t }

/-- Sets the given members one after the other, from the default settings. -/
def ofMembers? (ms : List (Member × Json)) : Option Settings :=
  ms.foldlM (fun s m => s.setMember? m.1 m.2) default

/-- The settings that a JSON value stands for. In an object every key must have content, and no known key
may come twice; in an array no element may follow the last member. -/
def ofValue? : Json → Option Settings
  | .object members =>
    if members.all (·.1.isSome) then
      let known := members.filterMap fun m => (m.1.bind Member.ofKey?).map (·, m.2)
      if (known.map (·.1)).Nodup then ofMembers? known else none
    else none
  | .array items =>
    if items.length ≤ Member.all.length then ofMembers? (Member.all.zip items) else none
  | _ => none

def ofJson? (s : String) : Option Settings := Json.parse? s >>= ofValue?

end Settings

end LayeredConfig
