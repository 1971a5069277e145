import LayeredConfig.Forest.Comparison
import LayeredConfig.Forest.Session
import LayeredConfig.Resolver

/-!
# Requests

Whatever a client asks of nodes that may be refused: the operations, and what only reads, to take a node for
one of a type, to resolve a characteristic, to compare two nodes. A request is granted or refused, and leaves
a forest behind.
-/

namespace LayeredConfig

variable {τ κ : Type} [DecidableEq τ] [DecidableEq κ]

namespace Operation

variable (S : Schema τ κ) (F : Forest τ κ)

/-- Whether an operation is granted, or why it is refused, and the forest after it. -/
def outcome : Operation τ κ → Outcome τ κ Unit
  | set n c v => F.set S n c v
  | clear n c => F.clear S n c
  | detach n c =>
    let (answer, F) := F.detach S n c
    (answer.map fun _ => (), F)
  | freeze n => F.freeze S n
  | unfreezeCopy n =>
    let (answer, F) := F.unfreezeCopy S n
    (answer.map fun _ => (), F)
  | applyAll n sources => F.applyAll S n sources
  | o => (.ok (), o.run S F)

/-- The forest after an operation is the one that its run leaves. -/
theorem outcome_snd (o : Operation τ κ) : (o.outcome S F).2 = o.run S F := by
  cases o <;> rfl

end Operation

/-- What a client may ask of nodes. -/
inductive Request (τ κ : Type) where
  | operation (o : Operation τ κ)
  | retype (n : Node τ) (t : τ)
  | resolve (r : Resolver τ κ) (n : Node τ) (c : κ)
  | resolveContent (r : Resolver τ κ) (n : Node τ) (c : κ)
  | compare (policy : OrderPolicy) (m n : Node τ)

/-- Whether a request is granted, or why it is refused, and the forest after it. -/
def Request.outcome (S : Schema τ κ) (F : Forest τ κ) : Request τ κ → Outcome τ κ Unit
  | operation o => o.outcome S F
  | retype n t => ((n.ofType t).map fun _ => (), F)
  | resolve r n c => ((r.resolve S F n c).map fun _ => (), F)
  | resolveContent r n c => ((r.resolveContent S F n c).map fun _ => (), F)
  | compare policy m n => ((F.compareNodes S policy m n).map fun _ => (), F)

end LayeredConfig
