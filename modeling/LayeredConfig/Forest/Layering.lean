import LayeredConfig.Forest.Growth
import LayeredConfig.Forest.Ownership

/-!
# Layering

To *lay* a node over another is to copy what it stores: leaves overwrite, and a slot is filled with a new
node only where the other has none. Sticky characteristics stay behind; and between nodes of different
types only what the target's type knows is copied, unless the target is a bag.
-/

namespace LayeredConfig

variable {τ κ : Type} [DecidableEq τ] [DecidableEq κ]

namespace Schema

variable (S : Schema τ κ)

/-- What a source offers to a target of the given type. -/
def offered (target : τ) (source : View τ κ) : List κ :=
  let all := if S.isBag source.type then S.storedKeys source.store else S.closure source.type
  all.filter fun c =>
    !S.isSticky c && (target = source.type || S.isBag target || S.reaches target c)

/-- What a source contributes to a target of the given type, with the stored values. -/
def contribution (target : τ) (source : View τ κ) : List (κ × Value τ) :=
  (S.offered target source).filterMap fun c => (source.store.get? c).map (c, ·)

end Schema

namespace Forest

variable (S : Schema τ κ)

/-- Takes over one entry: a leaf as it is, a slot as a new node unless the slot is taken. -/
def takeOver (n : Node τ) (F : Forest τ κ) (e : κ × Value τ) : Forest τ κ :=
  match e.2 with
  | .node d => F.fill n e.1 d.type
  | v => F.put n e.1 v

/-- Lays `source` over `n`, without any check. -/
def overlay (F : Forest τ κ) (n source : Node τ) : Forest τ κ :=
  if n = source then F
  else (S.contribution n.type (F.view source)).foldl (takeOver n) F

/-- Lays some sources over `n`, one after the other. -/
def applyAll (F : Forest τ κ) (n : Node τ) (sources : List (Node τ)) : Outcome τ κ Unit :=
  match F.requireUnfrozen S n with
  | .error e => (.error e, F)
  | .ok () => (.ok (), sources.foldl (fun F s => F.overlay S n s) F)

/-- Lays one source over `n`. -/
def apply (F : Forest τ κ) (n source : Node τ) : Outcome τ κ Unit := F.applyAll S n [source]

/-- An unfrozen copy of a root: a new node of its type with the root laid over it. -/
def unfreezeCopy (F : Forest τ κ) (n : Node τ) : Outcome τ κ (Node τ) :=
  match F.requireRoot S n with
  | .error e => (.error e, F)
  | .ok () =>
    let (F, copy) := F.create S n.type
    (.ok copy, F.overlay S copy n)

end Forest

end LayeredConfig
