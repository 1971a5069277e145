import LayeredConfig.Forest
import LayeredConfig.Settings

/-!
# Comparison of nodes

Two nodes of one type are compared characteristic by characteristic, in the order of enumeration. What is
absent comes before what is present; two present leaves compare by their text, under an order policy; a
slot counts by its presence alone.
-/

namespace LayeredConfig

namespace Forest

variable {τ κ : Type} [DecidableEq τ] [DecidableEq κ] (S : Schema τ κ)

def compareAt (F : Forest τ κ) (policy : OrderPolicy) (x y : Node τ) (c : κ) : Ordering :=
  match F.has x c, F.has y c with
  | false, false => .eq
  | false, true => .lt
  | true, false => .gt
  | true, true =>
    if S.isSlot c then .eq
    else policy.compareTexts (F.presentOne S .default x c) (F.presentOne S .default y c)

/-- The first difference between two nodes among some characteristics. -/
def compareIn (F : Forest τ κ) (policy : OrderPolicy) (x y : Node τ) : List κ → Ordering
  | [] => .eq
  | c :: cs => (F.compareAt S policy x y c).then (F.compareIn policy x y cs)

/-- Compares two nodes; refused when their types differ. -/
def compareNodes (F : Forest τ κ) (policy : OrderPolicy) (x y : Node τ) :
    Except (Failure τ κ) Ordering :=
  if x = y then .ok .eq
  else if x.type = y.type then .ok (F.compareIn S policy x y (S.closure x.type))
  else .error (.schemaMismatch x.type y.type)

end Forest

end LayeredConfig
