import LayeredConfig.Forest.Draft

/-!
# Sessions

A client works on a forest by operations on the nodes that it holds, and makes new roots by drafts. A draft
takes its steps one by one, and between two of them the client may do anything else; until the draft is
finished nobody but the draft itself can reach its node. A *session* is a forest with the drafts that are
not finished; it is *reachable* when some run of a client leads to it.
-/

namespace LayeredConfig

variable {τ κ : Type}

/-- An operation of a client. To lay one node over another is `applyAll` with one source. -/
inductive Operation (τ κ : Type) where
  | bare (t : τ)
  | create (t : τ)
  | child (n : Node τ) (c : κ)
  | childOrNew (n : Node τ) (c : κ)
  | set (n : Node τ) (c : κ) (v : Value τ)
  | clear (n : Node τ) (c : κ)
  | detach (n : Node τ) (c : κ)
  | freeze (n : Node τ)
  | unfreezeCopy (n : Node τ)
  | applyAll (n : Node τ) (sources : List (Node τ))

namespace Operation

/-- The nodes that the client hands over. -/
def operands : Operation τ κ → List (Node τ)
  | bare _ => []
  | create _ => []
  | child n _ => [n]
  | childOrNew n _ => [n]
  | set n _ v => n :: v.node?.toList
  | clear n _ => [n]
  | detach n _ => [n]
  | freeze n => [n]
  | unfreezeCopy n => [n]
  | applyAll n sources => n :: sources

variable [DecidableEq τ] [DecidableEq κ] (S : Schema τ κ)

def run (F : Forest τ κ) : Operation τ κ → Forest τ κ
  | bare t => (F.bare t).1
  | create t => (F.create S t).1
  | child _ _ => F
  | childOrNew n c => (F.childOrNew S n c).1
  | set n c v => (F.set S n c v).2
  | clear n c => (F.clear S n c).2
  | detach n c => (F.detach S n c).2
  | freeze n => (F.freeze S n).2
  | unfreezeCopy n => (F.unfreezeCopy S n).2
  | applyAll n sources => (F.applyAll S n sources).2

/-- The nodes whose trees an operation is free to change: the one that it is called on, unless it only reads
that one, and the one that it attaches. -/
def targets (F : Forest τ κ) : Operation τ κ → List (Node τ)
  | bare _ => []
  | create _ => []
  | child _ _ => []
  | childOrNew n _ => [n]
  | set n c v =>
    match (F.set S n c v).1 with
    | .ok () => n :: v.node?.toList
    | .error _ => [n]
  | clear n _ => [n]
  | detach n _ => [n]
  | freeze n => [n]
  | unfreezeCopy _ => []
  | applyAll n _ => [n]

end Operation

/-- The nodes that a step of a draft reads. -/
def DraftStep.operands {S : Schema τ κ} : DraftStep S → List (Node τ)
  | merge source => [source]
  | _ => []

/-- A forest and the nodes of the drafts that are not finished. -/
structure Session (τ κ : Type) where
  forest : Forest τ κ
  drafts : List (Node τ)

namespace Session

variable [DecidableEq τ] [DecidableEq κ]

/-- The session in which nothing has happened. -/
def empty : Session τ κ := ⟨.empty, []⟩

/-- Whether a client can hold a node: it is in the forest, and not in the tree of a draft. -/
def Holds (W : Session τ κ) (n : Node τ) : Prop :=
  W.forest.knows n = true ∧ W.forest.rootOf n ∉ W.drafts

instance (W : Session τ κ) (n : Node τ) : Decidable (W.Holds n) :=
  inferInstanceAs (Decidable (_ ∧ _))

variable (S : Schema τ κ)

inductive Step (W : Session τ κ) : Session τ κ → Prop where
  | call (o : Operation τ κ) (h : ∀ n ∈ o.operands, W.Holds n) : Step W ⟨o.run S W.forest, W.drafts⟩
  | begin (t : τ) : Step W ⟨(W.forest.create S t).1, (W.forest.create S t).2 :: W.drafts⟩
  | extend {n : Node τ} (hn : n ∈ W.drafts) (step : DraftStep S) (h : ∀ m ∈ step.operands, W.Holds m) :
    Step W ⟨W.forest.draftStep S n step, W.drafts⟩
  | finish {n : Node τ} (hn : n ∈ W.drafts) : Step W ⟨W.forest, W.drafts.filter (· ≠ n)⟩
  | finishFrozen {n : Node τ} (hn : n ∈ W.drafts) :
    Step W ⟨W.forest.markFrozen n, W.drafts.filter (· ≠ n)⟩

/-- Some steps of a run, one after the other. -/
inductive Steps (W : Session τ κ) : Session τ κ → Prop where
  | refl : Steps W W
  | tail {W' W'' : Session τ κ} (hs : Steps W W') (h : Step S W' W'') : Steps W W''

/-- The sessions that a client can reach. -/
abbrev Reachable (W : Session τ κ) : Prop := Steps S empty W

end Session

end LayeredConfig
