import LayeredConfig.Schema

/-!
# Failures

Why an operation on nodes is refused. A failure names what it is about; `Failure.message` words it.
-/

namespace LayeredConfig

/-- A node as a message shows it: its type and its id. -/
structure NodeLabel (τ : Type) where
  type : τ
  id : String
deriving DecidableEq, Repr

/-- Why an operation on nodes is refused. -/
inductive Failure (τ κ : Type) where
  | frozen (node : NodeLabel τ)
  /-- The node is attached to an owner, but only roots are admitted. -/
  | notRoot (node owner : NodeLabel τ)
  /-- The node is the root of the very tree that it is to be attached to. -/
  | selfAttach (node : NodeLabel τ)
  | bagOwnership (node : NodeLabel τ)
  /-- A value of that kind does not fit the characteristic. -/
  | typeMismatch (c : κ) (actual : Kind τ)
  | nullChild (c : κ)
  | notAChild (c : κ)
  | unresolved (c : κ)
  | schemaMismatch (left right : τ)
  | wrongNodeType (expected actual : τ)
deriving DecidableEq, Repr

def NodeLabel.text {τ κ : Type} (S : Schema τ κ) (l : NodeLabel τ) : String :=
  S.typeName l.type ++ "(" ++ l.id ++ ")"

namespace Failure

variable {τ κ : Type}

def message (S : Schema τ κ) : Failure τ κ → String
  | frozen n => "the node " ++ n.text S ++ " is frozen; create a copy to modify it"
  | notRoot n o =>
    "the operation is allowed for root nodes only, but " ++ n.text S ++ " is attached to " ++ o.text S
  | selfAttach n => "the node " ++ n.text S ++ " cannot be attached to itself"
  | bagOwnership n =>
    "the property bag " ++ n.text S ++ " cannot be attached to or detached from another node"
  | typeMismatch c actual =>
    "a value of kind " ++ actual.name S.typeName ++ " is not assignable to " ++ S.fullName c ++ " (" ++
      (S.format c).kind.name S.typeName ++ ")"
  | nullChild c => "child characteristic " ++ S.fullName c ++ " cannot be set to an empty value"
  | notAChild c => "characteristic " ++ S.fullName c ++ " is not a child characteristic"
  | unresolved c => "there is no default resolver for " ++ S.fullName c
  | schemaMismatch l r => "schema mismatch: cannot compare " ++ S.typeName l ++ " with " ++ S.typeName r
  | wrongNodeType e a => "invalid node type: expected " ++ S.typeName e ++ ", got " ++ S.typeName a

def isFrozen : Failure τ κ → Bool
  | frozen _ => true
  | _ => false

/-- Whether the reason is that a node must not be attached or is attached already. -/
def isOwnershipViolation : Failure τ κ → Bool
  | notRoot _ _ => true
  | selfAttach _ => true
  | bagOwnership _ => true
  | _ => false

end Failure

end LayeredConfig
