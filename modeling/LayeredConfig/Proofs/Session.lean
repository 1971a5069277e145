import LayeredConfig.Catalog
import LayeredConfig.Forest.Session
import LayeredConfig.Proofs.Frame

/-!
# Reachable sessions are orderly

A session is *orderly* when its forest is coherent and its drafts are unfrozen roots. Every step of a run
keeps this: an operation of the client does not touch the trees of the drafts, since the client holds no node
of them, and a step of a draft changes no cell. So every reachable session is orderly.
-/

namespace LayeredConfig

variable {τ κ : Type} [DecidableEq τ] [DecidableEq κ] {S : Schema τ κ}

namespace Operation

/-- Whether some operations, one after the other, are handed nodes that are there. -/
def Handed (S : Schema τ κ) (F : Forest τ κ) : List (Operation τ κ) → Prop
  | [] => True
  | o :: os => (∀ n ∈ o.operands, F.knows n = true) ∧ Handed S (o.run S F) os

instance decidableHanded (S : Schema τ κ) (F : Forest τ κ) :
    (os : List (Operation τ κ)) → Decidable (Handed S F os)
  | [] => isTrue trivial
  | o :: os => @instDecidableAnd _ _ inferInstance (decidableHanded S (o.run S F) os)

open Forest

variable {F : Forest τ κ} {r : Node τ}

/-- **Every operation keeps coherence.** -/
theorem coherent (o : Operation τ κ) (h : Coherent S F) (ho : ∀ n ∈ o.operands, F.knows n = true) :
    Coherent S (o.run S F) := by
  cases o with
  | bare t => exact h.bare t
  | create t => exact (h.create t).1
  | child n c => exact h
  | childOrNew n c => exact h.childOrNew (ho n (List.mem_cons_self ..)) c
  | set n c v =>
      refine h.set (ho n (List.mem_cons_self ..)) fun d hd => ho d ?_
      subst hd
      exact List.mem_cons_of_mem _ (List.mem_cons_self ..)
  | clear n c => exact h.clear n c
  | detach n c => exact h.detach (ho n (List.mem_cons_self ..)) c
  | freeze n => exact h.freeze (ho n (List.mem_cons_self ..))
  | unfreezeCopy n => exact h.unfreezeCopy n
  | applyAll n sources => exact h.applyAll (ho n (List.mem_cons_self ..)) sources

/-- What an operation is free to change has been handed over. -/
theorem mem_operands_of_targets {o : Operation τ κ} {n : Node τ} (hn : n ∈ o.targets S F) : n ∈ o.operands := by
  cases o with
  | set m c v =>
      simp only [targets] at hn
      split at hn
      · exact hn
      · exact List.mem_cons.mpr (Or.inl (List.mem_singleton.mp hn))
  | applyAll m sources => exact List.mem_cons.mpr (Or.inl (List.mem_singleton.mp hn))
  | bare t => cases hn
  | create t => cases hn
  | child m c => cases hn
  | unfreezeCopy m => cases hn
  | _ => exact hn

/-- **An operation keeps every tree that it is not free to change, and every frozen tree.** -/
theorem keeps (o : Operation τ κ) (h : Coherent S F) (hr : F.IsTop r)
    (ho : ∀ n ∈ o.operands, F.knows n = true) (hs : ∀ n ∈ o.targets S F, Spares F r n) :
    Keeps (F.place r) F (o.run S F) := by
  have ha := h.place_lt hr.known
  cases o with
  | bare t => exact Keeps.bare h ha t
  | create t => exact (Keeps.create h ha t).1
  | child n c => exact Keeps.refl _ F
  | childOrNew n c =>
      exact Keeps.childOrNew h hr (ho n (List.mem_cons_self ..)) (hs n (List.mem_cons_self ..)) c
  | set n c v =>
      have hn := ho n (List.mem_cons_self ..)
      simp only [targets] at hs
      split at hs
      · refine Keeps.set h hr hn (hs n (List.mem_cons_self ..)) c fun d hd => ?_
        have hmem : d ∈ n :: v.node?.toList := by simp [hd, Value.node?]
        exact ⟨ho d hmem, hs d hmem⟩
      · next e he =>
        -- A refused operation changes nothing, so that what it would attach need not be spared.
        show Keeps _ F (F.set S n c v).2
        rw [eq_of_set_error he]
        exact Keeps.refl _ F
  | clear n c => exact Keeps.clear h hr (ho n (List.mem_cons_self ..)) (hs n (List.mem_cons_self ..)) c
  | detach n c => exact Keeps.detach h hr (ho n (List.mem_cons_self ..)) (hs n (List.mem_cons_self ..)) c
  | freeze n => exact Keeps.freeze h hr (ho n (List.mem_cons_self ..)) (hs n (List.mem_cons_self ..))
  | unfreezeCopy n => exact Keeps.unfreezeCopy h ha n
  | applyAll n sources =>
      exact Keeps.applyAll h hr (ho n (List.mem_cons_self ..)) (hs n (List.mem_cons_self ..)) sources

end Operation

namespace Session

open Forest

variable {W W' : Session τ κ} {r : Node τ}

/-- A session whose forest is coherent and whose drafts are unfrozen roots. -/
structure Orderly (S : Schema τ κ) (W : Session τ κ) : Prop where
  coherent : Coherent S W.forest
  draft : ∀ n ∈ W.drafts, W.forest.IsTop n ∧ W.forest.isFrozen n = false

namespace Orderly

theorem empty : Orderly S (empty : Session τ κ) := ⟨Sound.empty, fun _ hn => nomatch hn⟩

theorem draft_of_cell (h : Orderly S W) {G : Forest τ κ} {n : Node τ} (hn : n ∈ W.drafts)
    (hk : G.knows n = true) (hc : G.cell n = W.forest.cell n) : G.IsTop n ∧ G.isFrozen n = false := by
  obtain ⟨htop, hf⟩ := h.draft n hn
  obtain ⟨htop', hf'⟩ := htop.of_cell hk hc
  exact ⟨htop', hf'.trans hf⟩

/-- **A step of a run keeps a session orderly.** -/
theorem step (h : Orderly S W) (hs : Step S W W') : Orderly S W' := by
  cases hs with
  | call o ho =>
      refine ⟨o.coherent h.coherent fun n hn => (ho n hn).1, fun n hn => ?_⟩
      obtain ⟨htop, -⟩ := h.draft n hn
      -- The client holds no node of the tree of a draft, so the draft is spared.
      have hkeeps := o.keeps (r := n) h.coherent htop (fun m hm => (ho m hm).1) fun m hm =>
        Or.inr fun e => (ho m (Operation.mem_operands_of_targets hm)).2 (e ▸ hn)
      exact h.draft_of_cell hn (hkeeps.known htop.known) (hkeeps.cell htop.known rfl)
  | begin t =>
      obtain ⟨hgrows, hcell⟩ := Grows.create (S := S) h.coherent t
      refine ⟨(h.coherent.create t).1, fun n hn => ?_⟩
      rcases List.mem_cons.mp hn with rfl | hn
      · have htop : (W.forest.create S t).1.IsTop (W.forest.create S t).2 :=
          ⟨(h.coherent.create t).2, fun hf => hf, by rw [owner?, hcell]⟩
        exact ⟨htop, by rw [htop.isFrozen_eq, hcell]⟩
      · obtain ⟨hk, hc⟩ := hgrows n (h.draft n hn).1.known
        exact h.draft_of_cell hn hk hc
  | extend hn step _ =>
      have hknown := (h.draft _ hn).1.known
      -- A step writes into the store of its draft, and leaves all cells alone.
      refine ⟨h.coherent.draftStep hknown step, fun n hn' => ?_⟩
      obtain ⟨hk, hc⟩ := Grows.draftStep h.coherent hknown step n (h.draft n hn').1.known
      exact h.draft_of_cell hn' hk hc
  | finish _ => exact ⟨h.coherent, fun n hn => h.draft n (List.mem_filter.mp hn).1⟩
  | @finishFrozen d hd =>
      refine ⟨h.coherent.markFrozen (h.draft d hd).1, fun n hn => ?_⟩
      obtain ⟨hn, hne⟩ := List.mem_filter.mp hn
      rw [decide_eq_true_eq] at hne
      refine h.draft_of_cell hn ?_ ?_
      · simp [markFrozen, (h.draft n hn).1.known]
      · rw [markFrozen, cell_withCell, if_neg hne]

/-- A frozen tree is no draft, and a step keeps it. -/
theorem keeps (h : Orderly S W) (hr : W.forest.IsTop r) (hf : W.forest.isFrozen r = true)
    (hs : Step S W W') : Keeps (W.forest.place r) W.forest W'.forest := by
  have hdraft : ∀ {n}, n ∈ W.drafts → n ≠ r := by
    rintro n hn rfl
    rw [(h.draft n hn).2] at hf
    cases hf
  have hplace : ∀ {n}, n ∈ W.drafts → W.forest.place n ≠ W.forest.place r := fun hn hp =>
    hdraft hn (h.coherent.place_inj (h.draft _ hn).1 hr hp)
  cases hs with
  | call o ho => exact o.keeps h.coherent hr (fun n hn => (ho n hn).1) fun _ _ => Or.inl hf
  | begin t => exact (Keeps.create h.coherent (h.coherent.place_lt hr.known) t).1
  | extend hn step _ =>
      obtain ⟨htop, hfn⟩ := h.draft _ hn
      exact Keeps.draftStep h.coherent hr htop.known (Or.inl hf) hfn step
  | finish _ => exact Keeps.refl _ _
  | finishFrozen hn => exact Keeps.markFrozen (hplace hn)

end Orderly

theorem Steps.trans {W'' : Session τ κ} (hs : Steps S W W') (hs' : Steps S W' W'') : Steps S W W'' := by
  induction hs' with
  | refl => exact hs
  | tail _ hstep ih => exact ih.tail hstep

/-- **A run keeps a session orderly.** -/
theorem Steps.orderly (hs : Steps S W W') (h : Orderly S W) : Orderly S W' := by
  induction hs with
  | refl => exact h
  | tail _ hstep ih => exact ih.step hstep

theorem Reachable.orderly (h : Reachable S W) : Orderly S W := Steps.orderly h Orderly.empty

/-- **A run keeps every frozen tree.** -/
theorem Steps.keeps (hs : Steps S W W') (h : Orderly S W) (hr : W.forest.IsTop r)
    (hf : W.forest.isFrozen r = true) : Keeps (W.forest.place r) W.forest W'.forest := by
  induction hs with
  | refl => exact Keeps.refl _ _
  | tail hs hstep ih =>
      obtain ⟨hr', hf'⟩ := ih.isTop hr
      exact Keeps.trans_at hr.known ih ((hs.orderly h).keeps hr' (hf'.trans hf) hstep)

theorem Steps.call (hs : Steps S W W') (o : Operation τ κ) (ho : ∀ n ∈ o.operands, W'.Holds n) :
    Steps S W ⟨o.run S W'.forest, W'.drafts⟩ := hs.tail (.call o ho)

/-- A client without drafts holds whatever is there, so that it may hand it to any operation. -/
theorem Reachable.run {F : Forest τ κ} (h : Reachable S ⟨F, []⟩) {os : List (Operation τ κ)}
    (hos : Operation.Handed S F os) : Reachable S ⟨os.foldl (Operation.run S) F, []⟩ := by
  induction os generalizing F with
  | nil => exact h
  | cons o os ih => exact ih (h.call o fun n hn => ⟨hos.1 n hn, List.not_mem_nil⟩) hos.2

/-! ## Small sessions -/

/-- Two bare trees. -/
def separate : Session NodeType Key :=
  ⟨[.bare .tree, .bare .tree].foldl (Operation.run catalog) .empty, []⟩

/-- The same after the second tree is put into the left slot of the first. -/
def joined : Session NodeType Key :=
  ⟨(Operation.set ⟨1, .tree⟩ (.specimen .left) (.node ⟨2, .tree⟩)).run catalog separate.forest, []⟩

theorem reachable_separate : Reachable catalog separate := by
  refine Reachable.run .refl ?_
  decide

theorem reachable_joined : Reachable catalog joined :=
  reachable_separate.call (.set ⟨1, .tree⟩ (.specimen .left) (.node ⟨2, .tree⟩)) (by decide)

/-- A tree of two nodes that stores a note, and beside it a node with an ordinary value, a sticky one and a hidden
one, and with a child that stores a value too. -/
def furnished : Session NodeType Key :=
  ⟨[.bare .holder, .set ⟨1, .holder⟩ (.specimen .note) (.text "here"), .childOrNew ⟨1, .holder⟩ (.specimen .extra),
      .bare .testParent, .set ⟨3, .testParent⟩ (.specimen .name) (.text "parent"),
      .set ⟨3, .testParent⟩ (.specimen .pinned) (.int 5), .set ⟨3, .testParent⟩ (.specimen .secret) (.text "hush"),
      .childOrNew ⟨3, .testParent⟩ (.specimen .leaf), .set ⟨4, .testLeaf⟩ (.specimen .alpha) (.int 7)].foldl
    (Operation.run catalog) .empty, []⟩

/-- The same after that node is put into a slot of the tree. -/
def anchored : Session NodeType Key :=
  ⟨(Operation.set ⟨1, .holder⟩ (.specimen .anchor) (.node ⟨3, .testParent⟩)).run catalog furnished.forest, []⟩

theorem reachable_furnished : Reachable catalog furnished := by
  refine Reachable.run .refl ?_
  decide

theorem reachable_anchored : Reachable catalog anchored :=
  reachable_furnished.call (.set ⟨1, .holder⟩ (.specimen .anchor) (.node ⟨3, .testParent⟩)) (by decide)

end Session

end LayeredConfig
