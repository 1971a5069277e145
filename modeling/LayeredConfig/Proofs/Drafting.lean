import LayeredConfig.Forest.Request
import LayeredConfig.Proofs.Interchange
import LayeredConfig.Proofs.Typing

/-!
# Drafts need no checks

Every step of a draft stands for an operation that a client might call on the node of the draft, or for none
where the step is passed over (`DraftStep.operation?`). The operations check what the steps do not: that the
tree is not frozen, that the value is accepted, that what is attached may be attached. No check fails, for the
node of a draft is an unfrozen root, and stays one whatever the steps are and whatever they merge
(`Forest.Drafted`). So a draft might be made by operations alone, up to the freeze at its end
(`Session.made_by_operations`).
-/

namespace LayeredConfig

variable {τ κ : Type} [DecidableEq τ] [DecidableEq κ] {S : Schema τ κ}

/-! ## Operations for steps -/

/-- The operation on the node of a draft that a step stands for, `none` for a step that is passed over. -/
def DraftStep.operation? (n : Node τ) : DraftStep S → Option (Operation τ κ)
  | .id s => some (.set n S.id (.text s))
  | .value c x => if S.isSlot c then none else some (.set n c ((S.format c).write x))
  | .raw c v => if S.isSlot c || !S.accepts c v then none else some (.set n c v)
  | .merge source => some (.applyAll n [source])

def DraftStep.operations (n : Node τ) (steps : List (DraftStep S)) : List (Operation τ κ) :=
  steps.filterMap (operation? n)

namespace Operation

def Granted (S : Schema τ κ) (F : Forest τ κ) : List (Operation τ κ) → Prop
  | [] => True
  | o :: os => (o.outcome S F).1 = .ok () ∧ Granted S (o.run S F) os

theorem granted_append {F : Forest τ κ} {os os' : List (Operation τ κ)} :
    Granted S F (os ++ os') ↔ Granted S F os ∧ Granted S (os.foldl (run S) F) os' := by
  induction os generalizing F with
  | nil => simp [Granted]
  | cons o os ih => rw [List.cons_append, Granted, Granted, ih, and_assoc, List.foldl_cons]

end Operation

namespace Forest

variable {F : Forest τ κ} {n : Node τ}

/-- **Of an unfrozen node, the operation for a step is granted, and does what the step does.** -/
theorem outcome_of_operation (hf : F.isFrozen n = false) {step : DraftStep S} {o : Operation τ κ}
    (ho : step.operation? n = some o) : o.outcome S F = (.ok (), F.draftStep S n step) := by
  cases step with
  | id s =>
      have haccepts : S.accepts S.id (.text s) = true := by
        rw [Schema.accepts, Format.accepts_iff_fits, Schema.format, S.id_format]
        exact trivial
      cases ho
      exact set_of_leaf hf haccepts rfl
  | value c x =>
      obtain ⟨hslot, ho⟩ := Option.ite_none_left_eq_some.mp ho
      cases ho
      rw [draftStep, if_neg hslot]
      exact set_write hf (Schema.slotType?_eq_none ((Bool.not_eq_true _).mp hslot)) x
  | raw c v =>
      obtain ⟨hskip, ho⟩ := Option.ite_none_left_eq_some.mp ho
      cases ho
      rw [draftStep, if_neg hskip]
      rw [Bool.not_eq_true, Bool.or_eq_false_iff, Bool.not_eq_false'] at hskip
      have hv := Schema.node?_of_accepts hskip.2
      rw [Schema.slotType?_eq_none hskip.1, Option.map_eq_none_iff] at hv
      exact set_of_leaf hf hskip.2 hv
  | merge source =>
      cases ho
      exact applyAll_of_unfrozen hf [source]

theorem draftStep_of_no_operation {step : DraftStep S} (ho : step.operation? n = none) :
    F.draftStep S n step = F := by
  cases step with
  | id s => cases ho
  | value c x =>
      have hslot : S.isSlot c = true := by_contra fun hne => Option.some_ne_none _ (ite_eq_left_iff.mp ho hne)
      exact if_pos hslot
  | raw c v =>
      have hskip : (S.isSlot c || !S.accepts c v) = true :=
        by_contra fun hne => Option.some_ne_none _ (ite_eq_left_iff.mp ho hne)
      exact if_pos hskip
  | merge source => cases ho

/-! ## The node of a draft -/

/-- What the steps of a draft rely on: its node is an unfrozen root. -/
structure Drafted (S : Schema τ κ) (F : Forest τ κ) (n : Node τ) : Prop where
  coherent : Coherent S F
  top : F.IsTop n
  unfrozen : F.isFrozen n = false

namespace Drafted

/-- **No step attaches or freezes the node, whatever it merges.** -/
theorem step (h : Drafted S F n) (step : DraftStep S) : Drafted S (F.draftStep S n step) n := by
  have hgrows := Grows.draftStep h.coherent h.top.known step
  obtain ⟨hknown, hcell⟩ := hgrows n h.top.known
  exact ⟨h.coherent.draftStep h.top.known step, (h.top.of_cell hknown hcell).1,
    (hgrows.isFrozen h.coherent h.top.known).trans h.unfrozen⟩

theorem steps (h : Drafted S F n) (steps : List (DraftStep S)) :
    Drafted S (steps.foldl (draftStep S n) F) n := by
  induction steps generalizing F with
  | nil => exact h
  | cons step steps ih => exact ih (h.step step)

/-- **The operations for the steps are granted, and make what the steps make.** -/
theorem granted (h : Drafted S F n) (steps : List (DraftStep S)) :
    Operation.Granted S F (DraftStep.operations n steps) ∧
      (DraftStep.operations n steps).foldl (Operation.run S) F = steps.foldl (draftStep S n) F := by
  induction steps generalizing F with
  | nil => exact ⟨trivial, rfl⟩
  | cons step steps ih =>
      obtain ⟨hgranted, hmade⟩ := ih (h.step step)
      cases ho : step.operation? n with
      | none =>
          rw [draftStep_of_no_operation ho] at hgranted hmade
          rw [DraftStep.operations, List.filterMap_cons_none ho, List.foldl_cons, draftStep_of_no_operation ho]
          exact ⟨hgranted, hmade⟩
      | some o =>
          have houtcome := outcome_of_operation h.unfrozen ho
          have hrun : o.run S F = F.draftStep S n step := by rw [← o.outcome_snd, houtcome]
          rw [DraftStep.operations, List.filterMap_cons_some ho, List.foldl_cons, List.foldl_cons, hrun]
          exact ⟨⟨congrArg Prod.fst houtcome, hrun ▸ hgranted⟩, hmade⟩

theorem freeze_eq (h : Drafted S F n) : F.freeze S n = (.ok (), F.markFrozen n) := by
  have hroot : F.requireRoot S n = .ok () := by rw [requireRoot, h.top.root]
  rw [freeze, hroot]

end Drafted

/-- A draft of `n` is made by granted operations alone; `G` is the forest when it is done, and `H` the forest
when it is frozen at its end. -/
structure MadeByOperations (S : Schema τ κ) (F : Forest τ κ) (n : Node τ) (steps : List (DraftStep S))
    (G H : Forest τ κ) : Prop where
  granted : Operation.Granted S F (DraftStep.operations n steps ++ [Operation.freeze n])
  built : (DraftStep.operations n steps).foldl (Operation.run S) F = G
  frozen : (DraftStep.operations n steps ++ [Operation.freeze n]).foldl (Operation.run S) F = H
  standing : G.IsTop n ∧ G.isFrozen n = false
  standing_frozen : H.IsTop n ∧ H.isFrozen n = true

theorem Drafted.madeByOperations (h : Drafted S F n) (steps : List (DraftStep S)) :
    MadeByOperations S F n steps (steps.foldl (draftStep S n) F)
      ((steps.foldl (draftStep S n) F).markFrozen n) := by
  obtain ⟨hgranted, hbuilt⟩ := h.granted steps
  have hdone := h.steps steps
  constructor
  case granted =>
    rw [Operation.granted_append, hbuilt]
    exact ⟨hgranted, congrArg Prod.fst hdone.freeze_eq, trivial⟩
  case built => exact hbuilt
  case frozen =>
    rw [List.foldl_append, hbuilt]
    exact congrArg Prod.snd hdone.freeze_eq
  case standing => exact ⟨hdone.top, hdone.unfrozen⟩
  case standing_frozen => exact ⟨hdone.top.markFrozen n, hdone.top.isFrozen_markFrozen⟩

end Forest

/-! ## Runs -/

namespace Session

open Forest

variable {W : Session τ κ}

theorem Orderly.drafted (h : Orderly S W) {n : Node τ} (hn : n ∈ W.drafts) : Drafted S W.forest n :=
  ⟨h.coherent, (h.draft n hn).1, (h.draft n hn).2⟩

/-- **In every session that a client can reach, a draft makes what granted operations make of a new node**, and
so does what is left to do of a draft that is under way. -/
theorem made_by_operations (h : Reachable S W) :
    (∀ t steps, (W.forest.draft S t steps).2 = (W.forest.create S t).2 ∧
        MadeByOperations S (W.forest.create S t).1 (W.forest.create S t).2 steps (W.forest.draft S t steps).1
          (W.forest.draftFrozen S t steps).1) ∧
      ∀ n ∈ W.drafts, ∀ steps, MadeByOperations S W.forest n steps (steps.foldl (draftStep S n) W.forest)
        ((steps.foldl (draftStep S n) W.forest).markFrozen n) := by
  refine ⟨fun t steps => ⟨rfl, ?_⟩, fun n hn steps => (h.orderly.drafted hn).madeByOperations steps⟩
  -- A new node is the node of a draft that has just begun.
  have hbegun : Orderly S ⟨(W.forest.create S t).1, (W.forest.create S t).2 :: W.drafts⟩ :=
    h.orderly.step (.begin t)
  exact (hbegun.drafted (List.mem_cons_self ..)).madeByOperations steps

theorem made_by_operations_joined :
    let F := (joined.forest.create catalog .tree).1
    let n := (joined.forest.create catalog .tree).2
    let steps : List (DraftStep catalog) :=
      [.id "draft", .raw (.specimen .label) (.int 1), .merge ⟨2, .tree⟩,
        .raw (.specimen .left) (.node ⟨2, .tree⟩), .value (.specimen .label) "leaf"]
    Reachable catalog joined ∧
      (joined.forest.isRoot ⟨2, .tree⟩ = false ∧ (DraftStep.operations n steps).length = 3) ∧
      MadeByOperations catalog F n steps (joined.forest.draft catalog .tree steps).1
        (joined.forest.draftFrozen catalog .tree steps).1 :=
  ⟨reachable_joined, by decide, ((made_by_operations reachable_joined).1 .tree _).2⟩

end Session

end LayeredConfig
