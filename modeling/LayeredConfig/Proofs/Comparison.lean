import LayeredConfig.Proofs.DigitOrder
import LayeredConfig.Proofs.Jobs

/-!
# The order of nodes and jobs

Nodes are compared characteristic by characteristic, and their texts under an order policy. Under both
policies the comparison is reflexive, to swap the nodes reverses the answer, and the first characteristic at
which two nodes differ decides. Answers compose along the closure as they compose at each of its
characteristics (`chained_compareIn`). By code point they always do, so that nodes of one type stand in a
lawful order and the equality of jobs is its ties (`Job.ordinal_lawful`); by the value of digit runs they do
where no two texts are tied (`Job.numeric_preorder_of_untied`). Ties do not compose, neither of texts nor of
jobs.
-/

namespace LayeredConfig

open Std

/-- The answers to three comparisons fit together: where the first two do not go down, the third is the first
of them that goes up. -/
def Chained (xy yz xz : Ordering) : Prop := xy.isLE = true → yz.isLE = true → xz = xy.then yz

namespace Chained

variable {xy yz xz xy' yz' xz' : Ordering}

theorem trans (h : Chained xy yz xz) (hxy : xy.isLE = true) (hyz : yz.isLE = true) : xz.isLE = true := by
  rw [h hxy hyz]
  cases xy with
  | lt => rfl
  | eq => exact hyz
  | gt => cases hxy

theorem eq_trans (h : Chained xy yz xz) (hxy : xy = .eq) (hyz : yz = .eq) : xz = .eq := by
  subst hxy hyz
  exact h rfl rfl

/-- What fits together at two places fits together in the order of the two. -/
theorem andThen (h : Chained xy yz xz) (h' : Chained xy' yz' xz') :
    Chained (xy.then xy') (yz.then yz') (xz.then xz') := by
  intro hxy hyz
  cases xy with
  | gt => cases hxy
  | lt =>
      cases yz with
      | gt => cases hyz
      | lt => rw [h rfl rfl]; rfl
      | eq => rw [h rfl rfl]; rfl
  | eq =>
      cases yz with
      | gt => cases hyz
      | eq => rw [h rfl rfl]; exact h' hxy hyz
      | lt =>
          rw [h rfl rfl]
          cases xy' with
          | gt => cases hxy
          | lt => rfl
          | eq => rfl

/-- A comparison that the swap reverses is chained at three elements wherever it is transitive on them. -/
theorem of_trans {α : Type} {cmp : α → α → Ordering} (hswap : ∀ x y, cmp y x = (cmp x y).swap) {x y z : α}
    (hxyz : (cmp x y).isLE = true → (cmp y z).isLE = true → (cmp x z).isLE = true)
    (hyzx : (cmp y z).isLE = true → (cmp z x).isLE = true → (cmp y x).isLE = true)
    (hzxy : (cmp z x).isLE = true → (cmp x y).isLE = true → (cmp z y).isLE = true)
    (hzyx : (cmp z y).isLE = true → (cmp y x).isLE = true → (cmp z x).isLE = true) :
    Chained (cmp x y) (cmp y z) (cmp x z) := by
  intro hxy hyz
  have hxz := hxyz hxy hyz
  rw [hswap x y, hswap y z, hswap x z] at *
  revert hyzx hzxy hzyx hxy hyz hxz
  cases cmp x y <;> cases cmp y z <;> cases cmp x z <;> simp

end Chained

/-- A comparison that is a total preorder, and an equality that is its ties. -/
structure Lawful {α : Type} (cmp : α → α → Ordering) (same : α → α → Bool) : Prop where
  self : ∀ x, cmp x x = .eq
  swap : ∀ x y, cmp y x = (cmp x y).swap
  trans : ∀ {x y z}, (cmp x y).isLE = true → (cmp y z).isLE = true → (cmp x z).isLE = true
  same_iff : ∀ {x y}, same x y = true ↔ cmp x y = .eq
  /-- Elements that are the same stand alike to every element. -/
  alike : ∀ {x y}, same x y = true → ∀ z, cmp x z = cmp y z ∧ cmp z x = cmp z y

theorem Lawful.of_transCmp {α : Type} {cmp : α → α → Ordering} [TransCmp cmp] {same : α → α → Bool}
    (h : ∀ {x y}, same x y = true ↔ cmp x y = .eq) : Lawful cmp same where
  self := fun _ => ReflCmp.compare_self
  swap := fun _ _ => OrientedCmp.eq_swap
  trans := TransCmp.isLE_trans
  same_iff := h
  alike := fun hxy _ => ⟨TransCmp.congr_left (h.mp hxy), TransCmp.congr_right (h.mp hxy)⟩

/-! ## Texts -/

namespace OrderPolicy

instance : TransCmp ordinal.compareTexts := inferInstanceAs (TransCmp fun x y : String => compare x y)

theorem compareTexts_self (policy : OrderPolicy) (x : String) : policy.compareTexts x x = .eq := by
  cases policy with
  | ordinal => exact ReflCmp.compare_self
  | numeric => exact DigitOrder.compareTexts_self x

theorem compareTexts_swap (policy : OrderPolicy) (x y : String) :
    policy.compareTexts y x = (policy.compareTexts x y).swap := by
  cases policy with
  | ordinal => exact OrientedCmp.eq_swap
  | numeric => exact DigitOrder.compareTexts_swap x y

theorem chained_ordinal (x y z : String) :
    Chained (ordinal.compareTexts x y) (ordinal.compareTexts y z) (ordinal.compareTexts x z) :=
  Chained.of_trans (compareTexts_swap ordinal) TransCmp.isLE_trans TransCmp.isLE_trans TransCmp.isLE_trans
    TransCmp.isLE_trans

theorem chained_numeric {x y z : String} (hxy : ¬ DigitOrder.Tied x y) (hyz : ¬ DigitOrder.Tied y z) :
    Chained (numeric.compareTexts x y) (numeric.compareTexts y z) (numeric.compareTexts x z) :=
  Chained.of_trans (compareTexts_swap numeric)
    (DigitOrder.compareTexts_trans fun h => absurd h hxy)
    (DigitOrder.compareTexts_trans fun h => absurd h hyz)
    (DigitOrder.compareTexts_trans fun _ h => absurd h hxy)
    (DigitOrder.compareTexts_trans fun h => absurd h.symm hyz)

end OrderPolicy

/-! ## Nodes -/

namespace Forest

variable {τ κ : Type} [DecidableEq τ] [DecidableEq κ] (S : Schema τ κ) (F : Forest τ κ) (policy : OrderPolicy)
  {x y z : Node τ}

theorem compareAt_self (x : Node τ) (c : κ) : F.compareAt S policy x x c = .eq := by
  rw [compareAt]
  cases F.has x c with
  | false => rfl
  | true =>
      simp only [OrderPolicy.compareTexts_self]
      exact ite_self _

theorem compareAt_swap (x y : Node τ) (c : κ) :
    F.compareAt S policy y x c = (F.compareAt S policy x y c).swap := by
  simp only [compareAt]
  cases F.has x c <;> cases F.has y c <;> try rfl
  cases S.isSlot c with
  | true => rfl
  | false => exact policy.compareTexts_swap _ _

/-- At one characteristic the answers fit together if those for its texts do. -/
theorem chained_compareAt {c : κ}
    (h : S.isSlot c = false → F.has x c = true → F.has y c = true → F.has z c = true →
      Chained (policy.compareTexts (F.presentOne S .default x c) (F.presentOne S .default y c))
        (policy.compareTexts (F.presentOne S .default y c) (F.presentOne S .default z c))
        (policy.compareTexts (F.presentOne S .default x c) (F.presentOne S .default z c))) :
    Chained (F.compareAt S policy x y c) (F.compareAt S policy y z c) (F.compareAt S policy x z c) := by
  simp only [compareAt]
  cases hx : F.has x c <;> cases hy : F.has y c <;> cases hz : F.has z c <;> try simp [Chained]; done
  cases hslot : S.isSlot c with
  | true => exact fun _ _ => rfl
  | false => exact h hslot hx hy hz

theorem compareIn_self (x : Node τ) (cs : List κ) : F.compareIn S policy x x cs = .eq := by
  induction cs with
  | nil => rfl
  | cons c cs ih => rw [compareIn, compareAt_self, ih]; rfl

theorem compareIn_swap (x y : Node τ) (cs : List κ) :
    F.compareIn S policy y x cs = (F.compareIn S policy x y cs).swap := by
  induction cs with
  | nil => rfl
  | cons c cs ih => rw [compareIn, compareIn, compareAt_swap, ih, Ordering.swap_then]

theorem chained_compareIn {cs : List κ}
    (h : ∀ c ∈ cs, Chained (F.compareAt S policy x y c) (F.compareAt S policy y z c)
      (F.compareAt S policy x z c)) :
    Chained (F.compareIn S policy x y cs) (F.compareIn S policy y z cs) (F.compareIn S policy x z cs) := by
  induction cs with
  | nil => exact fun _ _ => rfl
  | cons c cs ih =>
      exact (h c (List.mem_cons_self ..)).andThen (ih fun c' hc' => h c' (List.mem_cons_of_mem _ hc'))

/-- Two nodes are equal in the order if they are at every characteristic. -/
theorem compareIn_eq_iff {cs : List κ} :
    F.compareIn S policy x y cs = .eq ↔ ∀ c ∈ cs, F.compareAt S policy x y c = .eq := by
  induction cs with
  | nil => simp [compareIn]
  | cons c cs ih => rw [compareIn, Ordering.then_eq_eq, ih, List.forall_mem_cons]

/-- What decides is the first characteristic at which two nodes differ. -/
theorem compareIn_eq_iff_first {o : Ordering} (ho : o ≠ .eq) {cs : List κ} :
    F.compareIn S policy x y cs = o ↔
      ∃ before c after, cs = before ++ c :: after ∧ (∀ d ∈ before, F.compareAt S policy x y d = .eq) ∧
        F.compareAt S policy x y c = o := by
  induction cs with
  | nil => simp [compareIn, Ne.symm ho]
  | cons c cs ih =>
      rw [compareIn]
      by_cases hc : F.compareAt S policy x y c = .eq
      · rw [hc, Ordering.eq_then, ih]
        constructor
        · rintro ⟨before, d, after, rfl, hbefore, hd⟩
          exact ⟨c :: before, d, after, rfl, List.forall_mem_cons.mpr ⟨hc, hbefore⟩, hd⟩
        · rintro ⟨before, d, after, hcs, hbefore, hd⟩
          rcases before with - | ⟨b, before⟩
          · obtain ⟨rfl, -⟩ := List.cons.inj hcs
            exact absurd (hd.symm.trans hc) ho
          · obtain ⟨-, rfl⟩ := List.cons.inj hcs
            exact ⟨before, d, after, rfl, (List.forall_mem_cons.mp hbefore).2, hd⟩
      · have hfirst : (F.compareAt S policy x y c).then (F.compareIn S policy x y cs) =
            F.compareAt S policy x y c := by
          cases h : F.compareAt S policy x y c <;> first | rfl | exact absurd h hc
        rw [hfirst]
        constructor
        · exact fun h => ⟨[], c, cs, rfl, fun _ hd => (nomatch hd), h⟩
        · rintro ⟨before, d, after, hcs, hbefore, hd⟩
          rcases before with - | ⟨b, before⟩
          · obtain ⟨rfl, -⟩ := List.cons.inj hcs
            exact hd
          · obtain ⟨rfl, -⟩ := List.cons.inj hcs
            exact absurd (hbefore c (List.mem_cons_self ..)) hc

theorem chained_compareIn_ordinal (x y z : Node τ) (cs : List κ) :
    Chained (F.compareIn S .ordinal x y cs) (F.compareIn S .ordinal y z cs) (F.compareIn S .ordinal x z cs) :=
  chained_compareIn S F .ordinal fun _ _ =>
    chained_compareAt S F .ordinal fun _ _ _ _ => OrderPolicy.chained_ordinal _ _ _

/-! ## Nodes of one type -/

/-- How two nodes of one type compare. -/
def compareOfType (t : τ) (x y : { n : Node τ // n.type = t }) : Ordering :=
  F.compareIn S policy x.val y.val (S.closure t)

/-- Nodes of one type are compared along the closure of the type. -/
theorem compareNodes_ofType {t : τ} (x y : { n : Node τ // n.type = t }) :
    F.compareNodes S policy x.val y.val = .ok (F.compareOfType S policy t x y) := by
  unfold compareNodes compareOfType
  by_cases h : x.val = y.val
  · rw [if_pos h, h, compareIn_self]
  · rw [if_neg h, if_pos (x.property.trans y.property.symm), x.property]

/-- Two nodes of different types are refused, and no others. -/
theorem compareNodes_eq_error_iff {e : Failure τ κ} :
    F.compareNodes S policy x y = .error e ↔ x.type ≠ y.type ∧ e = .schemaMismatch x.type y.type := by
  unfold compareNodes
  by_cases hxy : x = y
  · rw [if_pos hxy, hxy]
    simp
  · rw [if_neg hxy]
    by_cases ht : x.type = y.type
    · simp [ht]
    · rw [if_neg ht, Except.error.injEq, eq_comm]
      simp [ht]

instance (t : τ) : TransCmp (F.compareOfType S .ordinal t) where
  eq_swap := F.compareIn_swap S .ordinal _ _ _
  isLE_trans := fun hxy hyz => (F.chained_compareIn_ordinal S _ _ _ _).trans hxy hyz

/-- Nodes of one type stand in a lawful order, in which the first characteristic decides that tells two nodes
apart; nodes of different types are refused, and no others. -/
structure OrdersByType : Prop where
  lawful : ∀ t, Lawful (F.compareOfType S policy t) fun x y => F.compareOfType S policy t x y == .eq
  granted : ∀ {t} (x y : { n : Node τ // n.type = t }),
    F.compareNodes S policy x.val y.val = .ok (F.compareOfType S policy t x y)
  decided : ∀ {t o} (x y : { n : Node τ // n.type = t }), o ≠ .eq → (F.compareOfType S policy t x y = o ↔
    ∃ before c after, S.closure t = before ++ c :: after ∧
      (∀ d ∈ before, F.compareAt S policy x.val y.val d = .eq) ∧ F.compareAt S policy x.val y.val c = o)
  refused : ∀ {x y : Node τ} {e},
    F.compareNodes S policy x y = .error e ↔ x.type ≠ y.type ∧ e = .schemaMismatch x.type y.type

theorem ordersByType_ordinal : OrdersByType S F .ordinal where
  lawful := fun _ => Lawful.of_transCmp beq_iff_eq
  granted := F.compareNodes_ofType S .ordinal
  decided := fun _ _ ho => F.compareIn_eq_iff_first S .ordinal ho
  refused := F.compareNodes_eq_error_iff S .ordinal

end Forest

/-! ## Jobs -/

namespace Job

variable (F : Forest NodeType Key) (policy : OrderPolicy) {x y z : Job}

/-- To compare two jobs is to compare them along the closure of their type. -/
theorem compareJobs_eq (x y : Job) :
    compareJobs F policy x y = F.compareIn catalog policy x.val y.val (catalog.closure .job) := by
  rw [compareJobs, F.compareNodes_ofType catalog policy x y]
  rfl

theorem compareJobs_self (x : Job) : compareJobs F policy x x = .eq := by
  rw [compareJobs_eq, Forest.compareIn_self]

theorem compareJobs_swap (x y : Job) : compareJobs F policy y x = (compareJobs F policy x y).swap := by
  rw [compareJobs_eq, compareJobs_eq, Forest.compareIn_swap]

instance : TransCmp (compareJobs F .ordinal) where
  eq_swap := compareJobs_swap F .ordinal _ _
  isLE_trans := by
    intro x y z hxy hyz
    rw [compareJobs_eq] at hxy hyz ⊢
    exact (F.chained_compareIn_ordinal catalog _ _ _ _).trans hxy hyz

/-- **By code point, jobs and the nodes of every type are in a lawful order.** -/
theorem ordinal_lawful (F : Forest NodeType Key) :
    (Lawful (compareJobs F .ordinal) (sameJob F .ordinal) ∧
      ∀ x y : Job, F.compareNodes catalog .ordinal x.val y.val = .ok (compareJobs F .ordinal x y)) ∧
      ∀ {τ κ : Type} [DecidableEq τ] [DecidableEq κ] (S : Schema τ κ) (G : Forest τ κ),
        G.OrdersByType S .ordinal := by
  refine ⟨⟨Lawful.of_transCmp beq_iff_eq, fun x y => ?_⟩, fun S G => G.ordersByType_ordinal S⟩
  rw [compareJobs_eq, F.compareNodes_ofType catalog .ordinal x y]
  rfl

/-- Two jobs that both store some leaf, with texts that are tied. -/
def TextsTied (x y : Job) : Prop :=
  ∃ c ∈ catalog.closure .job, (catalog.isSlot c = false ∧ F.has x.val c = true ∧ F.has y.val c = true) ∧
    DigitOrder.Tied (F.presentOne catalog .default x.val c) (F.presentOne catalog .default y.val c)

instance (x y : Job) : Decidable (TextsTied F x y) := inferInstanceAs (Decidable (∃ _ ∈ _, _))

theorem chained_numeric (hxy : ¬ TextsTied F x y) (hyz : ¬ TextsTied F y z) :
    Chained (compareJobs F .numeric x y) (compareJobs F .numeric y z) (compareJobs F .numeric x z) := by
  simp only [compareJobs_eq]
  refine Forest.chained_compareIn catalog F .numeric fun c hc =>
    Forest.chained_compareAt catalog F .numeric fun hslot hx hy hz => ?_
  exact OrderPolicy.chained_numeric (fun h => hxy ⟨c, hc, ⟨hslot, hx, hy⟩, h⟩)
    fun h => hyz ⟨c, hc, ⟨hslot, hy, hz⟩, h⟩

/-- A comparison that orders like a total preorder, except around elements that are tied. -/
structure PreordersUntied {α : Type} (cmp : α → α → Ordering) (tied : α → α → Prop) : Prop where
  self : ∀ x, cmp x x = .eq
  swap : ∀ x y, cmp y x = (cmp x y).swap
  trans : ∀ {x y z}, ¬ tied x y → ¬ tied y z → (cmp x y).isLE = true → (cmp y z).isLE = true →
    (cmp x z).isLE = true
  eq_trans : ∀ {x y z}, ¬ tied x y → ¬ tied y z → cmp x y = .eq → cmp y z = .eq → cmp x z = .eq

/-- **By the value of digit runs, texts and jobs are in a total preorder as far as they are not tied.** -/
theorem numeric_preorder_of_untied (F : Forest NodeType Key) :
    PreordersUntied DigitOrder.compareTexts DigitOrder.Tied ∧
      PreordersUntied (compareJobs F .numeric) (TextsTied F) := by
  refine ⟨?texts, ?jobs⟩
  case texts =>
    constructor
    case self => exact DigitOrder.compareTexts_self
    case swap => exact DigitOrder.compareTexts_swap
    case trans => exact fun hxy hyz => (OrderPolicy.chained_numeric hxy hyz).trans
    case eq_trans => exact fun hxy hyz => (OrderPolicy.chained_numeric hxy hyz).eq_trans
  case jobs =>
    constructor
    case self => exact compareJobs_self F .numeric
    case swap => exact compareJobs_swap F .numeric
    case trans => exact fun hxy hyz => (chained_numeric F hxy hyz).trans
    case eq_trans => exact fun hxy hyz => (chained_numeric F hxy hyz).eq_trans

/-- Jobs with these names, made in this order. -/
def numbered (ids : List String) : Session NodeType Key :=
  ids.foldl (fun J id => ⟨((JobOperation.named id).outcome J.forest).2, J.drafts⟩) .empty

theorem jobReachable_numbered (ids : List String) : Session.JobReachable (numbered ids) := by
  refine List.foldlRecOn ids _ (motive := fun J => Session.JobReachable J) .refl fun J hJ id _ => ?_
  exact hJ.job (.named id) (fun n hn => nomatch hn) fun n hn => nomatch hn

/-- The root of a new job is followed by the nodes in its seven slots. -/
def nth (i : Nat) : Job := ⟨⟨8 * i + 1, .job⟩, rfl⟩

theorem numeric_preorder_counted :
    (¬ DigitOrder.Tied "Job2" "Job10" ∧ ¬ DigitOrder.Tied "Job10" "Job11" ∧
      ¬ TextsTied (numbered ["Job2", "Job10", "Job11"]).forest (nth 0) (nth 1) ∧
      ¬ TextsTied (numbered ["Job2", "Job10", "Job11"]).forest (nth 1) (nth 2)) ∧
      (DigitOrder.compareTexts "Job2" "Job11").isLE = true ∧
      (compareJobs (numbered ["Job2", "Job10", "Job11"]).forest .numeric (nth 0) (nth 2)).isLE = true := by
  have htexts : ¬ DigitOrder.Tied "Job2" "Job10" ∧ ¬ DigitOrder.Tied "Job10" "Job11" := by decide +kernel
  have hjobs : ¬ TextsTied (numbered ["Job2", "Job10", "Job11"]).forest (nth 0) (nth 1) ∧
      ¬ TextsTied (numbered ["Job2", "Job10", "Job11"]).forest (nth 1) (nth 2) := by decide +kernel
  exact ⟨⟨htexts.1, htexts.2, hjobs⟩,
    (numeric_preorder_of_untied .empty).1.trans htexts.1 htexts.2 (by decide +kernel) (by decide +kernel),
    (numeric_preorder_of_untied _).2.trans hjobs.1 hjobs.2 (by decide +kernel) (by decide +kernel)⟩

/-- Two texts, and two jobs of these names, that are both equal to a third stand in an order to each other. -/
theorem numeric_not_transitive :
    (DigitOrder.compareTexts "v7b" "v007b" = .eq ∧ DigitOrder.compareTexts "v007b" "v7a" = .eq ∧
      DigitOrder.compareTexts "v7b" "v7a" = .gt) ∧
      Session.JobReachable (numbered ["v7b", "v007b", "v7a"]) ∧
      compareJobs (numbered ["v7b", "v007b", "v7a"]).forest .numeric (nth 0) (nth 1) = .eq ∧
      compareJobs (numbered ["v7b", "v007b", "v7a"]).forest .numeric (nth 1) (nth 2) = .eq ∧
      compareJobs (numbered ["v7b", "v007b", "v7a"]).forest .numeric (nth 0) (nth 2) = .gt := by
  refine ⟨by decide +kernel, jobReachable_numbered _, ?_⟩
  decide +kernel

end Job

end LayeredConfig
