import LayeredConfig.Forest.Layering

/-!
# Drafts

A *draft* is a list of steps that make a new root. The node is nobody else's until it is done, so the
steps need no checks: a step that does not fit is passed over.
-/

namespace LayeredConfig

variable {τ κ : Type}

/-- A step in the making of a node. -/
inductive DraftStep (S : Schema τ κ) where
  | id (s : String)
  /-- Stores a content under a leaf; passed over for a slot. -/
  | value (c : κ) (x : (S.format c).Content)
  /-- Stores a value under a leaf that accepts it; passed over otherwise. -/
  | raw (c : κ) (v : Value τ)
  | merge (source : Node τ)

namespace Forest

variable [DecidableEq τ] [DecidableEq κ] (S : Schema τ κ)

def draftStep (n : Node τ) (F : Forest τ κ) : DraftStep S → Forest τ κ
  | .id s => F.put n S.id (.text s)
  | .value c x => if S.isSlot c then F else F.put n c ((S.format c).write x)
  | .raw c v => if S.isSlot c || !S.accepts c v then F else F.put n c v
  | .merge source => F.overlay S n source

/-- A new root of a type, made in the given steps. -/
def draft (F : Forest τ κ) (t : τ) (steps : List (DraftStep S)) : Forest τ κ × Node τ :=
  let (F, n) := F.create S t
  (steps.foldl (draftStep S n) F, n)

/-- A new root of a type, made in the given steps and frozen. -/
def draftFrozen (F : Forest τ κ) (t : τ) (steps : List (DraftStep S)) : Forest τ κ × Node τ :=
  let (F, n) := F.draft S t steps
  (F.markFrozen n, n)

end Forest

end LayeredConfig
