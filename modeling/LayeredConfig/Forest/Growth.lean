import LayeredConfig.Forest

/-!
# New nodes

A new node of a type comes with a fresh node in every slot that can be reached from the type, so that a
new tree is complete. A bare node has no slots filled.
-/

namespace LayeredConfig

namespace Schema

variable {τ κ : Type} [DecidableEq κ] (S : Schema τ κ)

/-- The slots that can be reached from a type, with the types of their nodes. -/
def slotsOf (t : τ) : List (κ × τ) := (S.closure t).filterMap fun c => (S.slotType? c).map (c, ·)

end Schema

namespace Forest

variable {τ κ : Type} [DecidableEq τ] [DecidableEq κ] (S : Schema τ κ)

/-- A new root that holds nothing. -/
def bare (F : Forest τ κ) (t : τ) : Forest τ κ × Node τ :=
  let n : Node τ := ⟨F.next, t⟩
  (F.plant n, n)

/-- Puts a new node into a slot of the tree of `n`, unless the slot is taken. -/
def fill (n : Node τ) (F : Forest τ κ) (c : κ) (t : τ) : Forest τ κ :=
  if F.has n c then F else F.advance.settle (F.rootOf n) c ⟨F.next, t⟩

/-- A new root with a new node in every slot. -/
def create (F : Forest τ κ) (t : τ) : Forest τ κ × Node τ :=
  let (F, n) := F.bare t
  ((S.slotsOf t).foldl (fun F e => F.fill n e.1 e.2) F, n)

/-- The node in a slot; an empty slot is filled with a new node first. A frozen tree is left as it is, and a
new root is answered instead. Answers no node when the characteristic is not a slot. -/
def childOrNew (F : Forest τ κ) (n : Node τ) (c : κ) : Forest τ κ × Option (Node τ) :=
  match S.slotType? c with
  | none => (F, none)
  | some u =>
    match F.child? n c with
    | some d => (F, some d)
    | none =>
      if F.isFrozen n then
        let (F, d) := F.create S u
        (F, some d)
      else
        let F := F.fill n c u
        (F, F.child? n c)

end Forest

end LayeredConfig
