import LayeredConfig.Forest

/-!
# Resolvers

A resolver supplies values for characteristics that a node leaves empty; what the node stores always comes
first. A *table* has a default for some characteristics, of which the one registered last counts; a *chain*
asks the first of its resolvers that covers the characteristic.
-/

namespace LayeredConfig

variable {τ κ : Type}

/-- A default: a fixed value, or one computed from the node that is asked. -/
inductive Default (τ κ : Type) where
  | constant (v : Value τ)
  | derived (f : Forest τ κ → Node τ → Value τ)

def Default.structural (nodeText : Node τ → String) : Default τ κ → String
  | constant v => "Constant(" ++ v.structural nodeText ++ ")"
  | derived _ => "Derived"

/-- A named table of defaults, in the order of their registration. -/
structure ResolverTable (τ κ : Type) where
  name : String
  entries : List (κ × Default τ κ)

/-- Tables, and chains of resolvers. -/
inductive Resolver (τ κ : Type) where
  | table (t : ResolverTable τ κ)
  | chain (parts : List (Resolver τ κ))

variable [DecidableEq τ] [DecidableEq κ]

namespace ResolverTable

/-- The default that was registered last for a characteristic. -/
def default? (t : ResolverTable τ κ) (c : κ) : Option (Default τ κ) := t.entries.reverse.lookup c

/-- For how many characteristics there is a default. -/
def size (t : ResolverTable τ κ) : Nat := (t.entries.map Prod.fst).eraseDups.length

end ResolverTable

def Default.value (F : Forest τ κ) (n : Node τ) : Default τ κ → Value τ
  | constant v => v
  | derived f => f F n

namespace Resolver

mutual
def covers : Resolver τ κ → κ → Bool
  | table t, c => (t.default? c).isSome
  | chain parts, c => anyCovers parts c

/-- Whether one of some resolvers has a default for a characteristic. -/
def anyCovers : List (Resolver τ κ) → κ → Bool
  | [], _ => false
  | r :: rs, c => r.covers c || anyCovers rs c
end

mutual
def default? : Resolver τ κ → κ → Option (Default τ κ)
  | table t, c => t.default? c
  | chain parts, c => firstDefault? parts c

/-- The default of the first resolver that covers a characteristic. -/
def firstDefault? : List (Resolver τ κ) → κ → Option (Default τ κ)
  | [], _ => none
  | r :: rs, c => if r.covers c then r.default? c else firstDefault? rs c
end

variable (S : Schema τ κ)

/-- The value of a characteristic: the node's own, else the resolver's default. A node that stores something
which its characteristic derives nothing from stays without a value. -/
def resolve (r : Resolver τ κ) (F : Forest τ κ) (n : Node τ) (c : κ) : Except (Failure τ κ) (Value τ) :=
  let found := if F.has n c then F.value? S n c else (r.default? c).map (·.value F n)
  match found with
  | some v => .ok v
  | none => .error (.unresolved c)

/-- The value of a characteristic, or the given one where the resolver has none. -/
def resolveOr (r : Resolver τ κ) (F : Forest τ κ) (n : Node τ) (c : κ) (v : Value τ) : Value τ :=
  if F.has n c then (F.value? S n c).getD v
  else if r.covers c then
    match r.resolve S F n c with
    | .ok w => w
    | .error _ => v
  else v

/-- The value of a characteristic in the form of its format. -/
def resolveContent (r : Resolver τ κ) (F : Forest τ κ) (n : Node τ) (c : κ) :
    Except (Failure τ κ) (S.format c).Content :=
  match r.resolve S F n c with
  | .error e => .error e
  | .ok v =>
    match (S.format c).read v with
    | some x => .ok x
    | none => .error (.typeMismatch c v.kind)

end Resolver

/-- The node's own content under a characteristic, or the given one run through the characteristic's
resolution where nothing is stored; the given one also where the outcome does not fit the format. -/
def Forest.getOr (F : Forest τ κ) (S : Schema τ κ) (n : Node τ) (c : κ) (x : (S.format c).Content) :
    (S.format c).Content :=
  let raw := if F.has n c then F.explicit? n c else some ((S.format c).write x)
  ((S.resolve (F.view n) c raw).bind (S.format c).read).getD x

end LayeredConfig
