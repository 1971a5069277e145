import LayeredConfig.Proofs.Session

/-!
# Trees apart

A run that is called on no node of a tree leaves the tree as it is, whatever it reads of it and however many
copies it makes of it.

* `StepsAside S P` are the runs that leave aside the trees of the roots that `P` picks;
* `StepsAside.untouched`: they do not touch these trees;
* `Adds`: a run that leaves aside all trees that are there adds trees and does nothing else, and what it adds
  is apart from what was there (`Adds.copied`).

New trees are made in drafts, or by copying a root, and both only add (`Adds.draft`, `Adds.unfreezeCopy`).
-/

namespace LayeredConfig

variable {τ κ : Type} [DecidableEq τ] [DecidableEq κ] {S : Schema τ κ}

namespace Forest

variable {F G : Forest τ κ} {n r : Node τ}

/-- A node that is as it was. -/
structure Same (F G : Forest τ κ) (n : Node τ) : Prop where
  known : G.knows n = true
  owner : G.owner? n = F.owner? n
  root : G.rootOf n = F.rootOf n
  frozen : G.isFrozen n = F.isFrozen n
  store : G.storeOf n = F.storeOf n

/-- A tree that is as it was: each of its nodes is, and none has come or gone. -/
structure Untouched (F G : Forest τ κ) (r : Node τ) : Prop where
  isTop : G.IsTop r
  same : ∀ {n}, F.rootOf n = r → Same F G n
  members : ∀ {n}, G.rootOf n = r ↔ F.rootOf n = r

omit [DecidableEq κ] in
theorem Same.refl (hn : F.knows n = true) : Same F F n := ⟨hn, rfl, rfl, rfl, rfl⟩

omit [DecidableEq κ] in
theorem Same.trans {H : Forest τ κ} (h : Same F G n) (h' : Same G H n) : Same F H n where
  known := h'.known
  owner := h'.owner.trans h.owner
  root := h'.root.trans h.root
  frozen := h'.frozen.trans h.frozen
  store := h'.store.trans h.store

theorem Same.has_eq (h : Same F G n) (k : κ) : G.has n k = F.has n k := by
  rw [has, h.store]
  rfl

theorem Same.label_eq (h : Same F G n) : G.label S n = F.label S n := by
  rw [label, label, idOf, idOf, view, view, h.store]

omit [DecidableEq κ] in
/-- Every node of a known root is known. -/
theorem IsTop.knows_of_rootOf (hr : F.IsTop r) (hn : F.rootOf n = r) : F.knows n = true := by
  cases ho : F.owner? n with
  | none =>
      rw [rootOf, ho] at hn
      obtain rfl : n = r := hn
      exact hr.known
  | some o => exact knows_of_owner? ho

/-- The nodes of one tree use one store. -/
theorem Sound.place_eq_of_rootOf_eq {m : Node τ} (h : Coherent S F) (hn : F.knows n = true)
    (hm : F.rootOf m = F.rootOf n) : F.knows m = true ∧ F.place m = F.place n := by
  have hk := (h.isTop_rootOf hn).knows_of_rootOf hm
  exact ⟨hk, by rw [h.place_rootOf hk, hm, ← h.place_rootOf hn]⟩

/-- The nodes of two trees use two. -/
theorem Sound.place_ne_of_rootOf_ne {m : Node τ} (h : Coherent S F) (hn : F.knows n = true)
    (hm : F.knows m = true) (hne : F.rootOf m ≠ F.rootOf n) : F.place m ≠ F.place n := by
  rw [h.place_rootOf hn]
  exact h.place_ne (h.isTop_rootOf hn) hm hne

theorem Keeps.same (h : Keeps (F.place r) F G) (hF : Coherent S F) (hr : F.IsTop r) (hn : F.rootOf n = r) :
    Same F G n := by
  have hk := hr.knows_of_rootOf hn
  have hplace : F.place n = F.place r := by rw [hF.place_rootOf hk, hn]
  have hcell := h.cell hk hplace
  have howner : G.owner? n = F.owner? n := congrArg Cell.owner? hcell
  have hroot : G.rootOf n = F.rootOf n := by rw [rootOf, rootOf, howner]
  constructor
  case known => exact h.known hk
  case owner => exact howner
  case root => exact hroot
  case frozen =>
    rw [isFrozen, isFrozen, hroot, hn]
    exact congrArg Cell.frozen (h.cell hr.known rfl)
  case store => rw [storeOf, storeOf, h.place hk hplace, h.store, hplace]

theorem Keeps.untouched (h : Keeps (F.place r) F G) (hF : Coherent S F) (hG : Coherent S G) (hr : F.IsTop r) :
    Untouched F G r := by
  have htop := (h.isTop hr).1
  constructor
  case isTop => exact htop
  case same => exact fun hn => h.same hF hr hn
  case members =>
    intro n
    constructor
    · intro hn
      cases ho : G.owner? n with
      | none =>
          rw [rootOf, ho] at hn
          obtain rfl : n = r := hn
          exact hr.rootOf_eq
      | some o =>
          rw [rootOf, ho] at hn
          obtain rfl : o = r := hn
          -- What is attached to a root is in one of its slots, and the slots are as they were.
          obtain ⟨c, hc⟩ := hG.listed (knows_of_owner? ho) (fun hf => hf) ho
          have hc' : F.child? o c = some n := by
            rw [child?_eq, ← explicit?_congr (h.same hF hr hr.rootOf_eq).store, ← child?_eq]
            exact hc
          rw [rootOf, (hF.slot hr hc').2.2]
          rfl
    · intro hn
      exact (h.same hF hr hn).root.trans hn

end Forest

namespace Session

open Forest

/-! ## Runs that leave trees aside -/

/-- A step of a run that is called on no tree of a root that `P` picks. -/
inductive StepAside (S : Schema τ κ) (P : Node τ → Prop) (W : Session τ κ) : Session τ κ → Prop where
  | call (o : Operation τ κ) (ho : ∀ n ∈ o.operands, W.Holds n)
      (ht : ∀ n ∈ o.targets S W.forest, ¬ P (W.forest.rootOf n)) :
    StepAside S P W ⟨o.run S W.forest, W.drafts⟩
  | begin (t : τ) : StepAside S P W ⟨(W.forest.create S t).1, (W.forest.create S t).2 :: W.drafts⟩
  | extend {n : Node τ} (hn : n ∈ W.drafts) (hp : ¬ P n) (step : DraftStep S)
      (h : ∀ m ∈ step.operands, W.Holds m) : StepAside S P W ⟨W.forest.draftStep S n step, W.drafts⟩
  | finish {n : Node τ} (hn : n ∈ W.drafts) : StepAside S P W ⟨W.forest, W.drafts.filter (· ≠ n)⟩
  | finishFrozen {n : Node τ} (hn : n ∈ W.drafts) (hp : ¬ P n) :
    StepAside S P W ⟨W.forest.markFrozen n, W.drafts.filter (· ≠ n)⟩

/-- Some such steps, one after the other. -/
inductive StepsAside (S : Schema τ κ) (P : Node τ → Prop) (W : Session τ κ) : Session τ κ → Prop where
  | refl : StepsAside S P W W
  | tail {W' W'' : Session τ κ} (hs : StepsAside S P W W') (h : StepAside S P W' W'') : StepsAside S P W W''

variable {P Q : Node τ → Prop} {W W' W'' : Session τ κ} {n m r k : Node τ}

namespace StepAside

theorem step (hs : StepAside S P W W') : Step S W W' := by
  cases hs with
  | call o ho _ => exact .call o ho
  | begin t => exact .begin t
  | extend hn _ step h => exact .extend hn step h
  | finish hn => exact .finish hn
  | finishFrozen hn _ => exact .finishFrozen hn

theorem mono (hs : StepAside S P W W') (hq : ∀ n, Q n → P n) : StepAside S Q W W' := by
  cases hs with
  | call o ho ht => exact .call o ho fun n hn hp => ht n hn (hq _ hp)
  | begin t => exact .begin t
  | extend hn hp step h => exact .extend hn (fun hp' => hp (hq _ hp')) step h
  | finish hn => exact .finish hn
  | finishFrozen hn hp => exact .finishFrozen hn fun hp' => hp (hq _ hp')

theorem keeps (hs : StepAside S P W W') (h : Orderly S W) (hr : W.forest.IsTop r) (hp : P r) :
    Keeps (W.forest.place r) W.forest W'.forest := by
  have haside : ∀ {n}, ¬ P n → n ≠ r := fun hn e => hn (e ▸ hp)
  cases hs with
  | call o ho ht =>
      exact o.keeps h.coherent hr (fun n hn => (ho n hn).1) fun n hn => Or.inr (haside (ht n hn))
  | begin t => exact (Keeps.create h.coherent (h.coherent.place_lt hr.known) t).1
  | extend hn hpn step _ =>
      obtain ⟨htop, hf⟩ := h.draft _ hn
      have hspares : Spares W.forest r _ := Or.inr (htop.rootOf_eq ▸ haside hpn)
      exact Keeps.draftStep h.coherent hr htop.known hspares hf step
  | finish _ => exact Keeps.refl _ _
  | finishFrozen hn hpn =>
      exact Keeps.markFrozen fun hplace => haside hpn (h.coherent.place_inj (h.draft _ hn).1 hr hplace)

end StepAside

namespace StepsAside

theorem steps (hs : StepsAside S P W W') : Steps S W W' := by
  induction hs with
  | refl => exact .refl
  | tail _ hstep ih => exact ih.tail hstep.step

theorem mono (hs : StepsAside S P W W') (hq : ∀ n, Q n → P n) : StepsAside S Q W W' := by
  induction hs with
  | refl => exact .refl
  | tail _ hstep ih => exact ih.tail (hstep.mono hq)

theorem trans (hs : StepsAside S P W W') (hs' : StepsAside S P W' W'') : StepsAside S P W W'' := by
  induction hs' with
  | refl => exact hs
  | tail _ hstep ih => exact ih.tail hstep

theorem keeps (hs : StepsAside S P W W') (h : Orderly S W) (hr : W.forest.IsTop r) (hp : P r) :
    Keeps (W.forest.place r) W.forest W'.forest := by
  induction hs with
  | refl => exact Keeps.refl _ _
  | tail hs hstep ih =>
      exact Keeps.trans_at hr.known ih (hstep.keeps (hs.steps.orderly h) (ih.isTop hr).1 hp)

/-- **A run does not touch the trees that it leaves aside.** -/
theorem untouched (hs : StepsAside S P W W') (h : Orderly S W) (hr : W.forest.IsTop r) (hp : P r) :
    Untouched W.forest W'.forest r :=
  (hs.keeps h hr hp).untouched h.coherent (hs.steps.orderly h).coherent hr

end StepsAside

/-! ## Runs that only add trees -/

/-- A run that leaves aside all trees that are there and adds others, the ones of the roots `ks` among them. -/
structure Adds (S : Schema τ κ) (W W' : Session τ κ) (ks : List (Node τ)) : Prop where
  run : StepsAside S (fun r => W.forest.knows r = true) W W'
  fresh : ∀ k ∈ ks, W.forest.knows k = false ∧ W'.forest.IsTop k

/-- A node of a tree that was not there. -/
def New (W W' : Session τ κ) (n : Node τ) : Prop :=
  W'.forest.knows n = true ∧ W.forest.knows (W'.forest.rootOf n) = false

/-- A client holds what is new and no draft. -/
theorem New.holds (hn : New W W' n) (h : Orderly S W) (hd : W'.drafts = W.drafts) : W'.Holds n := by
  refine ⟨hn.1, fun hmem => ?_⟩
  rw [hd] at hmem
  exact Bool.eq_false_iff.mp hn.2 (h.draft _ hmem).1.known

/-- A node that is a draft was one before, unless it is new. -/
theorem Step.mem_drafts (hs : Step S W W') (h : Orderly S W) (hk : W.forest.knows n = true)
    (hn : n ∈ W'.drafts) : n ∈ W.drafts := by
  cases hs with
  | call o _ => exact hn
  | begin t =>
      rcases List.mem_cons.mp hn with rfl | hn
      · have hnew : W.forest.knows (W.forest.create S t).2 = false := h.coherent.fresh t
        exact absurd hk (Bool.eq_false_iff.mp hnew)
      · exact hn
  | extend _ _ _ => exact hn
  | finish _ => exact (List.mem_filter.mp hn).1
  | finishFrozen _ => exact (List.mem_filter.mp hn).1

namespace Adds

variable {ks ks' : List (Node τ)} {G : Forest τ κ}

/-- Every node that was there is as it was. -/
theorem same (ha : Adds S W W' ks) (h : Orderly S W) (hn : W.forest.knows n = true) :
    Same W.forest W'.forest n := by
  have htop := h.coherent.isTop_rootOf hn
  exact (ha.run.untouched h htop htop.known).same rfl

theorem of_run (hs : StepsAside S (fun r => W.forest.knows r = true) W W') : Adds S W W' [] :=
  ⟨hs, fun _ hk => nomatch hk⟩

theorem refl (S : Schema τ κ) (W : Session τ κ) : Adds S W W [] := of_run .refl

theorem trans (ha : Adds S W W' ks) (h : Orderly S W) (ha' : Adds S W' W'' ks') :
    Adds S W W'' (ks ++ ks') := by
  have hmono : ∀ r, W.forest.knows r = true → W'.forest.knows r = true := fun _ hr => (ha.same h hr).known
  refine ⟨ha.run.trans (ha'.run.mono hmono), fun k hk => ?_⟩
  rcases List.mem_append.mp hk with hk | hk
  · obtain ⟨hnew, htop⟩ := ha.fresh k hk
    exact ⟨hnew, (ha'.run.untouched (ha.run.steps.orderly h) htop htop.known).isTop⟩
  · obtain ⟨hnew, htop⟩ := ha'.fresh k hk
    exact ⟨Bool.eq_false_iff.mpr fun hk => Bool.eq_false_iff.mp hnew (hmono k hk), htop⟩

theorem reachable (ha : Adds S W W' ks) (h : Reachable S W) : Reachable S W' := Steps.trans h ha.run.steps

theorem mono (ha : Adds S W W' ks) (hks : ∀ k ∈ ks', k ∈ ks) : Adds S W W' ks' :=
  ⟨ha.run, fun k hk => ha.fresh k (hks k hk)⟩

/-- No node that was there has become a draft. -/
theorem mem_drafts (ha : Adds S W W' ks) (h : Orderly S W) (hk : W.forest.knows n = true)
    (hn : n ∈ W'.drafts) : n ∈ W.drafts := by
  have hrun := ha.run
  clear ha
  induction hrun with
  | refl => exact hn
  | tail hs hstep ih =>
      have hk' := ((of_run hs).same h hk).known
      exact ih (hstep.step.mem_drafts (hs.steps.orderly h) hk' hn)

/-- What a client holds it keeps holding. -/
theorem holds (ha : Adds S W W' ks) (h : Orderly S W) (hm : W.Holds m) : W'.Holds m := by
  obtain ⟨hk, hdraft⟩ := hm
  have hsame := ha.same h hk
  refine ⟨hsame.known, fun hm => hdraft ?_⟩
  rw [hsame.root] at hm
  exact ha.mem_drafts h (h.coherent.isTop_rootOf hk).known hm

/-! ### Operations on trees that have been added -/

/-- A root that has been added is a node of a new tree. -/
theorem new_of_mem (ha : Adds S W W' ks) (hk : k ∈ ks) : New W W' k := by
  obtain ⟨hnew, htop⟩ := ha.fresh k hk
  exact ⟨htop.known, by rwa [htop.rootOf_eq]⟩

/-- An operation on new trees changes no other. -/
theorem call (ha : Adds S W W' ks) (h : Orderly S W) (hd : W'.drafts = W.drafts) (o : Operation τ κ)
    (ho : ∀ m ∈ o.operands, New W W' m) : Adds S W ⟨o.run S W'.forest, W'.drafts⟩ [] := by
  refine of_run (ha.run.tail (.call o (fun m hm => (ho m hm).holds h hd) fun m hm => ?_))
  exact Bool.eq_false_iff.mp (ho m (Operation.mem_operands_of_targets hm)).2

/-- What is asked for in a new tree is a node of it. -/
theorem childOrNew (ha : Adds S W W' ks) (h : Orderly S W) (hd : W'.drafts = W.drafts) (hk : k ∈ ks)
    (hf : W'.forest.isFrozen k = false) {c : κ} {t : τ} (hc : S.slotType? c = some t)
    {d? : Option (Node τ)} (hfound : W'.forest.childOrNew S k c = (G, d?)) :
    Adds S W ⟨G, W'.drafts⟩ [k] ∧ G.knows (d?.getD k) = true ∧ G.rootOf (d?.getD k) = k := by
  have h' := ha.run.steps.orderly h
  obtain ⟨hnew, htop⟩ := ha.fresh k hk
  have hcall := ha.call h hd (.childOrNew k c) fun m hm => List.mem_singleton.mp hm ▸ ha.new_of_mem hk
  obtain ⟨hknown, hcell⟩ := Grows.childOrNew h'.coherent k c k htop.known
  have hanswer := childOrNew_of_unfrozen hf hc
  have hcoherent := h'.coherent.childOrNew htop.known c
  simp only [Operation.run, hfound] at hcall hknown hcell hanswer hcoherent
  have htop' := (htop.of_cell hknown hcell).1
  refine ⟨⟨hcall.run, fun m hm => List.mem_singleton.mp hm ▸ ⟨hnew, htop'⟩⟩, ?_⟩
  cases d? with
  | none => exact ⟨htop'.known, htop'.rootOf_eq⟩
  | some d =>
      obtain ⟨hdk, -, ho⟩ := hcoherent.slot htop' hanswer.symm
      exact ⟨hdk, by rw [rootOf, Option.getD_some, ho]; rfl⟩

/-- To set one new root in the tree of another changes no tree that was there. -/
theorem set (ha : Adds S W W' ks) (h : Orderly S W) (hd : W'.drafts = W.drafts) (hn : New W W' n)
    (hk : k ∈ ks) (c : κ) :
    Adds S W ⟨(W'.forest.set S n c (.node k)).2, W'.drafts⟩ [W'.forest.rootOf n] := by
  have h' := ha.run.steps.orderly h
  have hcall := ha.call h hd (.set n c (.node k)) fun m hm => by
    rcases List.mem_cons.mp hm with rfl | hm
    · exact hn
    · exact List.mem_singleton.mp hm ▸ ha.new_of_mem hk
  refine ⟨hcall.run, fun m hm => ?_⟩
  obtain rfl := List.mem_singleton.mp hm
  refine ⟨hn.2, h'.coherent.isTop_set hn.1 fun d hd => ?_⟩
  cases hd
  exact (ha.fresh k hk).2.known

/-! ### Drafts and copies -/

/-- A new root adds a tree, and stays a draft while its steps are taken. -/
theorem draftSteps (h : Orderly S W) (hn : W.forest.knows n = false) (steps : List (DraftStep S))
    (ho : ∀ m ∈ steps.flatMap DraftStep.operands, W.Holds m) (ha : Adds S W ⟨G, n :: W.drafts⟩ []) :
    Adds S W ⟨steps.foldl (draftStep S n) G, n :: W.drafts⟩ [] := by
  induction steps generalizing G with
  | nil => exact ha
  | cons step steps ih =>
      rw [List.flatMap_cons] at ho
      refine ih (fun m hm => ho m (List.mem_append_right _ hm)) (of_run (ha.run.tail ?_))
      refine .extend (List.mem_cons_self ..) (Bool.eq_false_iff.mp hn) step fun m hm => ?_
      exact ha.holds h (ho m (List.mem_append_left _ hm))

theorem drafting (h : Orderly S W) (t : τ) (steps : List (DraftStep S))
    (ho : ∀ m ∈ steps.flatMap DraftStep.operands, W.Holds m) :
    Adds S W ⟨(W.forest.draft S t steps).1, (W.forest.draft S t steps).2 :: W.drafts⟩ [] :=
  draftSteps h (h.coherent.fresh t) steps ho (of_run (.tail .refl (.begin t)))

/-- What a draft makes is an unfrozen root. -/
theorem isTop_draft (h : Orderly S W) (t : τ) (steps : List (DraftStep S))
    (ho : ∀ m ∈ steps.flatMap DraftStep.operands, W.Holds m) :
    (W.forest.draft S t steps).1.IsTop (W.forest.draft S t steps).2 ∧
      (W.forest.draft S t steps).1.isFrozen (W.forest.draft S t steps).2 = false :=
  ((drafting h t steps ho).run.steps.orderly h).draft _ (List.mem_cons_self ..)

/-- **A draft adds a tree.** -/
theorem draft (h : Orderly S W) (t : τ) (steps : List (DraftStep S))
    (ho : ∀ m ∈ steps.flatMap DraftStep.operands, W.Holds m) :
    Adds S W ⟨(W.forest.draft S t steps).1, W.drafts⟩ [(W.forest.draft S t steps).2] := by
  have hnew : W.forest.knows (W.forest.draft S t steps).2 = false := h.coherent.fresh t
  have hdrafts : ((W.forest.draft S t steps).2 :: W.drafts).filter (· ≠ (W.forest.draft S t steps).2) =
      W.drafts := by
    rw [List.filter_cons_of_neg (by simp), List.filter_eq_self]
    intro m hm
    rw [decide_eq_true_eq]
    rintro rfl
    exact Bool.eq_false_iff.mp hnew (h.draft _ hm).1.known
  have hrun := (drafting h t steps ho).run.tail (.finish (List.mem_cons_self ..))
  rw [hdrafts] at hrun
  refine ⟨hrun, fun k hk => ?_⟩
  obtain rfl := List.mem_singleton.mp hk
  exact ⟨hnew, (isTop_draft h t steps ho).1⟩

theorem bare (h : Orderly S W) (t : τ) :
    Adds S W ⟨(W.forest.bare t).1, W.drafts⟩ [(W.forest.bare t).2] := by
  refine ⟨.tail .refl (.call (.bare t) (fun _ hm => nomatch hm) fun _ hm => nomatch hm), fun k hk => ?_⟩
  obtain rfl := List.mem_singleton.mp hk
  exact ⟨h.coherent.fresh t, isTop_bare _ t⟩

/-- **To copy a root adds a tree.** -/
theorem unfreezeCopy (h : Orderly S W) (hn : W.Holds n) (he : W.forest.unfreezeCopy S n = (.ok k, G)) :
    Adds S W ⟨G, W.drafts⟩ [k] := by
  have hrun : StepAside S (fun r => W.forest.knows r = true) W ⟨(W.forest.unfreezeCopy S n).2, W.drafts⟩ :=
    .call (.unfreezeCopy n) (fun m hm => List.mem_singleton.mp hm ▸ hn) fun _ hm => nomatch hm
  rw [he] at hrun
  refine ⟨.tail .refl hrun, fun m hm => ?_⟩
  obtain rfl := List.mem_singleton.mp hm
  rcases unfreezeCopy_cases S W.forest n with ⟨e, he'⟩ | ⟨-, he'⟩
  · rw [he] at he'
    cases he'
  · rw [he, Prod.mk.injEq] at he'
    obtain ⟨hk, rfl⟩ := he'
    obtain rfl := Except.ok.inj hk
    obtain ⟨hcreate, hknown⟩ := h.coherent.create n.type
    obtain ⟨hgrown, hcell⟩ := Grows.overlay hcreate hknown n _ hknown
    have htop : (W.forest.create S n.type).1.IsTop (W.forest.create S n.type).2 :=
      ⟨hknown, fun hf => hf, by rw [owner?, (Grows.create h.coherent n.type).2]⟩
    exact ⟨h.coherent.fresh n.type, (htop.of_cell hgrown hcell).1⟩

end Adds

/-! ## Copies -/

/-- The runs `R P` that leave aside the trees of the roots in `P` are made of steps that do. -/
def MadeOfSteps (S : Schema τ κ) (R : (Node τ → Prop) → Session τ κ → Session τ κ → Prop) : Prop :=
  ∀ P r U V, Orderly S U → U.forest.IsTop r → P r → R P U V → StepsAside S (· = r) U V

theorem StepsAside.madeOfSteps : MadeOfSteps S (StepsAside S) := fun _ _ _ _ _ _ hp hs =>
  hs.mono fun _ e => e ▸ hp

variable {R : (Node τ → Prop) → Session τ κ → Session τ κ → Prop}

theorem MadeOfSteps.untouched (hR : MadeOfSteps S R) (h : Orderly S W) (hr : W.forest.IsTop r) (hp : P r)
    (hs : R P W W') : Untouched W.forest W'.forest r := (hR P r W W' h hr hp hs).untouched h hr rfl

/-- The tree of `k`, new in the session `W'`, is apart from all trees that were there in `W`. -/
structure Copied (R : (Node τ → Prop) → Session τ κ → Session τ κ → Prop) (W W' : Session τ κ)
    (k : Node τ) : Prop where
  new : W.forest.knows k = false
  isTop : W'.forest.IsTop k
  /-- Neither to make the copy nor to work on it later touches what was there. -/
  source : ∀ {r W''}, W.forest.IsTop r → R (· = r) W' W'' → Untouched W.forest W''.forest r
  /-- Work on other trees does not touch the copy. -/
  copy : ∀ {W''}, R (· = k) W' W'' → Untouched W'.forest W''.forest k

theorem Adds.copied {ks : List (Node τ)} (ha : Adds S W W' ks) (h : Orderly S W) (hR : MadeOfSteps S R)
    (hk : k ∈ ks) : Copied R W W' k := by
  have h' := ha.run.steps.orderly h
  obtain ⟨hnew, htop⟩ := ha.fresh k hk
  constructor
  case new => exact hnew
  case isTop => exact htop
  case source =>
    intro r W'' hr hs
    have hadd : StepsAside S (· = r) W W' := ha.run.mono fun _ e => e ▸ hr.known
    have hr' := (hadd.untouched h hr rfl).isTop
    exact (hadd.trans (hR (· = r) r W' W'' h' hr' rfl hs)).untouched h hr rfl
  case copy => exact fun hs => hR.untouched (P := (· = k)) h' htop rfl hs

/-- How the trees of a session are apart. -/
structure Isolation (S : Schema τ κ) (R : (Node τ → Prop) → Session τ κ → Session τ κ → Prop)
    (W : Session τ κ) : Prop where
  /-- An operation touches no tree but those of its targets. -/
  call : ∀ {o : Operation τ κ} {r}, (∀ n ∈ o.operands, W.Holds n) → W.forest.IsTop r →
    (∀ n ∈ o.targets S W.forest, W.forest.rootOf n ≠ r) → Untouched W.forest (o.run S W.forest) r
  /-- A run touches no tree that it leaves aside. -/
  run : ∀ {P W' r}, R P W W' → P r → W.forest.IsTop r → Untouched W.forest W'.forest r
  copy : ∀ {n k G}, W.Holds n → W.forest.unfreezeCopy S n = (.ok k, G) → Copied R W ⟨G, W.drafts⟩ k
  /-- What a draft makes is apart from what was merged into it. -/
  draft : ∀ {t steps}, (∀ m ∈ steps.flatMap DraftStep.operands, W.Holds m) →
    Copied R W ⟨(W.forest.draft S t steps).1, W.drafts⟩ (W.forest.draft S t steps).2

theorem Orderly.isolation (h : Orderly S W) (hR : MadeOfSteps S R) : Isolation S R W := by
  constructor
  case call =>
    intro o r ho hr ht
    have hs : StepsAside S (· = r) W ⟨o.run S W.forest, W.drafts⟩ := .tail .refl (.call o ho ht)
    exact hs.untouched h hr rfl
  case run => exact fun hs hp hr => hR.untouched h hr hp hs
  case copy => exact fun hn he => (Adds.unfreezeCopy h hn he).copied h hR (List.mem_singleton.mpr rfl)
  case draft => exact fun ho => (Adds.draft h _ _ ho).copied h hR (List.mem_singleton.mpr rfl)

end Session

end LayeredConfig
