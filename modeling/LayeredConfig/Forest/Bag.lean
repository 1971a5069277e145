import LayeredConfig.Forest.Layering

/-!
# Bags

A bag is a node of a type without declarations: it holds any characteristic, lists what it holds by name,
and is the flat form in which the values of a tree are handed on.
-/

namespace LayeredConfig

variable {τ κ : Type} [DecidableEq τ] [DecidableEq κ]

namespace Forest

variable (S : Schema τ κ)

/-- The stored leaves with their values, by name. -/
def leafEntries (F : Forest τ κ) (n : Node τ) : List (κ × Value τ) :=
  ((F.stored S n).filter fun c => !S.isSlot c).filterMap fun c => (F.explicit? n c).map (c, ·)

/-- The stored slots with the types of their nodes, by name. -/
def slotEntries (F : Forest τ κ) (n : Node τ) : List (κ × τ) :=
  (F.stored S n).filterMap fun c => (S.slotType? c).map (c, ·)

/-- Whether two lists of leaves agree, values compared by `Value.equals`. -/
def sameLeaves : List (κ × Value τ) → List (κ × Value τ) → Bool
  | [], [] => true
  | a :: as, b :: bs => a.1 == b.1 && a.2.equals b.2 && sameLeaves as bs
  | _, _ => false

/-- Whether two bags hold the same leaves with equal values, and the same slots. -/
def sameBag (F : Forest τ κ) (m n : Node τ) : Bool :=
  sameLeaves (F.leafEntries S m) (F.leafEntries S n) && F.slotEntries S m == F.slotEntries S n

/-- A new bag of the given type with some sources laid over it. -/
def bagOf (F : Forest τ κ) (bag : τ) (sources : List (Node τ)) : Forest τ κ × Node τ :=
  let (F, n) := F.create S bag
  (sources.foldl (fun F s => F.overlay S n s) F, n)

end Forest

end LayeredConfig
