import LayeredConfig.Failure
import LayeredConfig.Presentation

/-!
# Forests

Nodes live in a *forest*. Of every node the forest has a *cell*: the owner that the node is attached to,
the place of the store that it uses, and a frozen flag. A root and the nodes attached to it use the store
at one place, and so make up a *tree*; the slots of that store hold the attached nodes, at whatever depth of
the type graph a slot belongs. Of the frozen flags only that of the root counts.

A slot holds one node for good, whether or not anybody has asked for it yet. A node that the forest does
not know counts as a root that holds nothing: no store stands at place 0.
-/

namespace LayeredConfig

/-- What the forest records of a node. -/
structure Cell (τ : Type) where
  /-- The root that the node is attached to, `none` for roots. -/
  owner? : Option (Node τ)
  place : Nat
  frozen : Bool
deriving DecidableEq, Repr

/-- The cells of the nodes, the stores at their places, and the serial number of the next new node or
place. -/
structure Forest (τ κ : Type) where
  cells : Store (Node τ) (Cell τ)
  stores : Store Nat (Store κ (Value τ))
  next : Nat

/-- What an operation answers, or why it is refused, and the forest after it. -/
abbrev Outcome (τ κ α : Type) : Type := Except (Failure τ κ) α × Forest τ κ

variable {τ κ : Type}

namespace Forest

def empty : Forest τ κ := ⟨.empty, .empty, 1⟩

def storeAt (F : Forest τ κ) (a : Nat) : Store κ (Value τ) := (F.stores.get? a).getD .empty

def withStoreAt (F : Forest τ κ) (a : Nat) (s : Store κ (Value τ)) : Forest τ κ :=
  { F with stores := F.stores.insert a s }

def advance (F : Forest τ κ) : Forest τ κ := { F with next := F.next + 1 }

section Lemmas

variable (F : Forest τ κ) (a b : Nat) (s : Store κ (Value τ))

@[simp] theorem storeAt_withStoreAt :
    (F.withStoreAt a s).storeAt b = if b = a then s else F.storeAt b := by
  simp only [storeAt, withStoreAt, Store.get?_insert]
  split <;> rfl

@[simp] theorem next_withStoreAt : (F.withStoreAt a s).next = F.next := rfl

@[simp] theorem storeAt_advance : F.advance.storeAt a = F.storeAt a := rfl

@[simp] theorem next_advance : F.advance.next = F.next + 1 := rfl

end Lemmas

variable [DecidableEq τ]

def knows (F : Forest τ κ) (n : Node τ) : Bool := F.cells.contains n

def cell (F : Forest τ κ) (n : Node τ) : Cell τ := (F.cells.get? n).getD ⟨none, 0, false⟩

def withCell (F : Forest τ κ) (n : Node τ) (c : Cell τ) : Forest τ κ :=
  { F with cells := F.cells.insert n c }

section Lemmas

variable (F : Forest τ κ) (n m : Node τ) (c : Cell τ) (a : Nat) (s : Store κ (Value τ))

@[simp] theorem knows_withCell : (F.withCell n c).knows m = (decide (m = n) || F.knows m) := by
  simp only [knows, withCell, Store.contains_insert]

@[simp] theorem cell_withCell : (F.withCell n c).cell m = if m = n then c else F.cell m := by
  simp only [cell, withCell, Store.get?_insert]
  split <;> rfl

@[simp] theorem storeAt_withCell : (F.withCell n c).storeAt a = F.storeAt a := rfl

@[simp] theorem next_withCell : (F.withCell n c).next = F.next := rfl

@[simp] theorem knows_withStoreAt : (F.withStoreAt a s).knows m = F.knows m := rfl

@[simp] theorem cell_withStoreAt : (F.withStoreAt a s).cell m = F.cell m := rfl

@[simp] theorem knows_advance : F.advance.knows m = F.knows m := rfl

@[simp] theorem cell_advance : F.advance.cell m = F.cell m := rfl

end Lemmas

/-! ## Reading -/

/-- The root that a node is attached to, `none` for roots. -/
def owner? (F : Forest τ κ) (n : Node τ) : Option (Node τ) := (F.cell n).owner?

def place (F : Forest τ κ) (n : Node τ) : Nat := (F.cell n).place

def rootOf (F : Forest τ κ) (n : Node τ) : Node τ := (F.owner? n).getD n

def isRoot (F : Forest τ κ) (n : Node τ) : Bool := (F.owner? n).isNone

/-- Whether the root of the tree of a node is frozen. -/
def isFrozen (F : Forest τ κ) (n : Node τ) : Bool := (F.cell (F.rootOf n)).frozen

def storeOf (F : Forest τ κ) (n : Node τ) : Store κ (Value τ) := F.storeAt (F.place n)

def view (F : Forest τ κ) (n : Node τ) : View τ κ := ⟨n.type, F.storeOf n⟩

variable [DecidableEq κ]

/-- What is stored under a characteristic, before any resolution. -/
def explicit? (F : Forest τ κ) (n : Node τ) (c : κ) : Option (Value τ) := (F.storeOf n).get? c

/-- Whether anything is stored under a characteristic. -/
def has (F : Forest τ κ) (n : Node τ) (c : κ) : Bool := (F.storeOf n).contains c

def child? (F : Forest τ κ) (n : Node τ) (c : κ) : Option (Node τ) := (F.explicit? n c).bind Value.node?

/-! ## Elementary changes

None of them checks anything. The operations are made of them. -/

/-- Stores a value in the store that a node uses. -/
def put (F : Forest τ κ) (n : Node τ) (c : κ) (v : Value τ) : Forest τ κ :=
  F.withStoreAt (F.place n) ((F.storeOf n).insert c v)

/-- Makes a node a root with a new store. -/
def plant (F : Forest τ κ) (n : Node τ) : Forest τ κ :=
  ((F.withCell n ⟨none, F.next, false⟩).withStoreAt F.next .empty).advance

/-- Puts the node `d` into the slot `c` of the root `r`, and attaches it to `r`. -/
def settle (F : Forest τ κ) (r : Node τ) (c : κ) (d : Node τ) : Forest τ κ :=
  (F.withCell d ⟨some r, F.place r, false⟩).put r c (.node d)

/-- Brings an entry into the tree of the root `r`: a node is attached to `r`, any other value is stored. -/
def receive (r : Node τ) (F : Forest τ κ) (e : κ × Value τ) : Forest τ κ :=
  match e.2 with
  | .node d => F.settle r e.1 d
  | v => F.put r e.1 v

section Lemmas

variable (F : Forest τ κ) (n m : Node τ) (a : Nat)

omit [DecidableEq κ]

@[simp] theorem knows_plant : (F.plant n).knows m = (decide (m = n) || F.knows m) := by
  simp only [plant, knows_advance, knows_withStoreAt, knows_withCell]

@[simp] theorem cell_plant : (F.plant n).cell m = if m = n then ⟨none, F.next, false⟩ else F.cell m := by
  simp only [plant, cell_advance, cell_withStoreAt, cell_withCell]

@[simp] theorem storeAt_plant : (F.plant n).storeAt a = if a = F.next then .empty else F.storeAt a := by
  simp only [plant, storeAt_advance, storeAt_withStoreAt, storeAt_withCell]

@[simp] theorem next_plant : (F.plant n).next = F.next + 1 := rfl

end Lemmas

section Lemmas

variable (F : Forest τ κ) (n m r d : Node τ) (c : κ) (v : Value τ) (a : Nat)

@[simp] theorem knows_put : (F.put n c v).knows m = F.knows m := rfl

@[simp] theorem cell_put : (F.put n c v).cell m = F.cell m := rfl

@[simp] theorem storeAt_put :
    (F.put n c v).storeAt a = if a = F.place n then (F.storeOf n).insert c v else F.storeAt a := by
  simp only [put, storeAt_withStoreAt]

@[simp] theorem next_put : (F.put n c v).next = F.next := rfl

@[simp] theorem knows_settle : (F.settle r c d).knows m = (decide (m = d) || F.knows m) := by
  simp only [settle, knows_put, knows_withCell]

@[simp] theorem cell_settle :
    (F.settle r c d).cell m = if m = d then ⟨some r, F.place r, false⟩ else F.cell m := by
  simp only [settle, cell_put, cell_withCell]

@[simp] theorem storeAt_settle :
    (F.settle r c d).storeAt a =
      if a = F.place r then (F.storeOf r).insert c (.node d) else F.storeAt a := by
  have hp : (F.withCell d ⟨some r, F.place r, false⟩).place r = F.place r := by
    simp only [place, cell_withCell]
    split <;> rfl
  simp only [settle, storeAt_put, storeOf, hp, storeAt_withCell]

@[simp] theorem next_settle : (F.settle r c d).next = F.next := rfl

end Lemmas

/-! ## Readers -/

variable (S : Schema τ κ)

def value? (F : Forest τ κ) (n : Node τ) (c : κ) : Option (Value τ) := S.value? (F.view n) c

/-- What a reader sees under a characteristic, as its format has it. -/
def get? (F : Forest τ κ) (n : Node τ) (c : κ) : Option (S.format c).Content :=
  (F.value? S n c).bind (S.format c).read

def idOf (F : Forest τ κ) (n : Node τ) : String := S.idText (F.view n)

def label (F : Forest τ κ) (n : Node τ) : NodeLabel τ := ⟨n.type, F.idOf S n⟩

/-- In presentations a node is shown by its id. -/
def naming (F : Forest τ κ) : Naming τ := ⟨F.idOf S, S.typeName⟩

def stored (F : Forest τ κ) (n : Node τ) : List κ := S.storedKeys (F.storeOf n)

/-- The characteristics that have a value, in the order of presentation. -/
def withValues (F : Forest τ κ) (n : Node τ) : List κ := S.withValues (F.view n)

/-- Whether anything presentable has a value, sticky characteristics apart. -/
def hasChanges (F : Forest τ κ) (n : Node τ) : Bool := S.hasChanges (F.view n)

def present (F : Forest τ κ) (style : SetStyle) (n : Node τ) : String :=
  S.present style (F.naming S) (F.view n)

def presentOne (F : Forest τ κ) (style : ValueStyle) (n : Node τ) (c : κ) : String :=
  S.presentOne style (F.naming S) (F.view n) c

def presentValue (F : Forest τ κ) (style : ValueStyle) (v : Value τ) : String :=
  style.text (F.naming S) v

/-- The structural form of a node: its type and its standing. -/
def structural (F : Forest τ κ) (n : Node τ) : String :=
  "ConfigNode \x7b type: " ++ Quoted.quote (S.typeName n.type) ++
    ", root: " ++ (if F.isRoot n then "true" else "false") ++
    ", frozen: " ++ (if F.isFrozen n then "true" else "false") ++ " \x7d"

/-! ## Checks -/

def requireUnfrozen (F : Forest τ κ) (n : Node τ) : Except (Failure τ κ) Unit :=
  if F.isFrozen n then .error (.frozen (F.label S n)) else .ok ()

def requireRoot (F : Forest τ κ) (n : Node τ) : Except (Failure τ κ) Unit :=
  match F.owner? n with
  | some o => .error (.notRoot (F.label S n) (F.label S o))
  | none => .ok ()

end Forest

def Node.ofType [DecidableEq τ] (n : Node τ) (t : τ) : Except (Failure τ κ) { m : Node τ // m.type = t } :=
  if h : n.type = t then .ok ⟨n, h⟩ else .error (.wrongNodeType t n.type)

end LayeredConfig
