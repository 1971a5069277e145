import Mathlib.Data.List.Induction
import LayeredConfig.Proofs.Varying

/-!
# Environment variables

A variable is added to a job by reading the variables that the job stores, dropping those with its key, and
writing the rest with the new one at the end to a copy of the job. What has been read has keys without an equals
sign, so that it can be written and read again; if the keys that are added have none either, a run of such
additions is a fold over lists (`foldl_addVariable`): of the old variables those stay whose key is not added, and
of the new ones the last of each key (`lastOfEachKey`).

All else is what a copy leaves of a job (`Varied`): its id, and every leaf that jobs know and that is not sticky.
What jobs do not know is gone with the first addition.
-/

namespace LayeredConfig

namespace Job

open Forest Session

variable {J W : Session NodeType Key} {F : Forest NodeType Key} {j : Job} {k : Key}

/-! ## Lists of variables -/

/-- The last variable of each key, in the order in which they stand. -/
def lastOfEachKey : List EnvironmentVariable → List EnvironmentVariable
  | [] => []
  | v :: vs => if v.key ∈ vs.map EnvironmentVariable.key then lastOfEachKey vs else v :: lastOfEachKey vs

theorem lastOfEachKey_sublist (vs : List EnvironmentVariable) : (lastOfEachKey vs).Sublist vs := by
  induction vs with
  | nil => exact List.Sublist.slnil
  | cons v vs ih =>
      unfold lastOfEachKey
      split
      · exact ih.cons v
      · exact ih.cons_cons v

theorem mem_lastOfEachKey_iff {vs : List EnvironmentVariable} {v : EnvironmentVariable} :
    v ∈ lastOfEachKey vs ↔
      ∃ before after, vs = before ++ v :: after ∧ v.key ∉ after.map EnvironmentVariable.key := by
  induction vs with
  | nil => simp [lastOfEachKey]
  | cons w ws ih =>
      unfold lastOfEachKey
      split
      · next hw =>
        rw [ih]
        constructor
        · rintro ⟨before, after, rfl, hv⟩
          exact ⟨w :: before, after, rfl, hv⟩
        · rintro ⟨before, after, hws, hv⟩
          cases before with
          | nil =>
              cases hws
              exact absurd hw hv
          | cons x before =>
              cases hws
              exact ⟨before, after, rfl, hv⟩
      · next hw =>
        rw [List.mem_cons, ih]
        constructor
        · rintro (rfl | ⟨before, after, rfl, hv⟩)
          · exact ⟨[], ws, rfl, hw⟩
          · exact ⟨w :: before, after, rfl, hv⟩
        · rintro ⟨before, after, hws, hv⟩
          cases before with
          | nil =>
              cases hws
              exact Or.inl rfl
          | cons x before =>
              cases hws
              exact Or.inr ⟨before, after, rfl, hv⟩

theorem nodup_lastOfEachKey (vs : List EnvironmentVariable) :
    ((lastOfEachKey vs).map EnvironmentVariable.key).Nodup := by
  induction vs with
  | nil => exact List.nodup_nil
  | cons v vs ih =>
      unfold lastOfEachKey
      split
      · exact ih
      · next hv =>
        rw [List.map_cons, List.nodup_cons]
        exact ⟨fun hmem => hv (((lastOfEachKey_sublist vs).map _).subset hmem), ih⟩

/-- Some variables that are added to others, all at once. -/
def addVariables (L vs : List EnvironmentVariable) : List EnvironmentVariable :=
  (L.filter fun w => w.key ∉ vs.map EnvironmentVariable.key) ++ lastOfEachKey vs

/-- **To add variables one after the other is to add them all at once.** -/
theorem foldl_addVariable (L vs : List EnvironmentVariable) : vs.foldl addVariable L = addVariables L vs := by
  induction vs generalizing L with
  | nil => simp [addVariables, lastOfEachKey]
  | cons v vs ih =>
      -- The variable that is added first stays if its key does not come again.
      have hkept : (addVariable L v).filter (fun w => w.key ∉ vs.map EnvironmentVariable.key) =
          L.filter (fun w => w.key ∉ (v :: vs).map EnvironmentVariable.key) ++
            [v].filter (fun w => w.key ∉ vs.map EnvironmentVariable.key) := by
        rw [addVariable, List.filter_append, List.filter_filter]
        congr 1
        refine List.filter_congr fun w _ => ?_
        rw [← Bool.decide_and, decide_eq_decide, List.map_cons, List.mem_cons, not_or]
        exact and_comm
      rw [List.foldl_cons, ih, addVariables, addVariables, hkept, List.append_assoc]
      congr 1
      by_cases hv : v.key ∈ vs.map EnvironmentVariable.key
      · rw [List.filter_cons_of_neg (by simpa using hv), lastOfEachKey, if_pos hv]
        rfl
      · rw [List.filter_cons_of_pos (by simpa using hv), lastOfEachKey, if_neg hv]
        rfl

theorem nodup_addVariables {L : List EnvironmentVariable} (h : (L.map EnvironmentVariable.key).Nodup)
    (vs : List EnvironmentVariable) : ((addVariables L vs).map EnvironmentVariable.key).Nodup := by
  rw [addVariables, List.map_append, List.nodup_append]
  refine ⟨(List.filter_sublist.map _).nodup h, nodup_lastOfEachKey vs, ?_⟩
  intro x hx y hy hxy
  obtain ⟨w, hw, rfl⟩ := List.mem_map.mp hx
  have hnot := of_decide_eq_true (List.mem_filter.mp hw).2
  exact hnot (hxy ▸ ((lastOfEachKey_sublist vs).map _).subset hy)

/-! ## The variables of a job -/

abbrev variablesKey : Key := .environment .environmentVariables

theorem notMem_key_of_mem_environmentVariables {v : EnvironmentVariable}
    (hv : v ∈ environmentVariables F j) : '=' ∉ v.key.toList := by
  cases hread : F.get? catalog j.val variablesKey with
  | none =>
      rw [environmentVariables, hread] at hv
      cases hv
  | some vs =>
      rw [environmentVariables, hread] at hv
      rw [Forest.get?, Option.bind_eq_some_iff] at hread
      obtain ⟨value, -, hvalue⟩ := hread
      exact Format.readable_of_read _ _ _ hvalue v hv

theorem environmentVariables_adjust (h : Reachable catalog W) (hj : W.Holds j.val)
    {vs : List EnvironmentVariable} (hvs : ∀ v ∈ vs, '=' ∉ v.key.toList) :
    let made := adjust W.forest j variablesKey vs
    environmentVariables made.1 made.2 = vs := by
  intro made
  have hread := get?_adjust h hj (a := variablesKey) (by decide) vs
  have hback := Format.read_write (τ := NodeType) (.list .assignment) vs hvs
  exact congrArg (fun found : Option (List EnvironmentVariable) => found.getD []) (hread.trans hback)

def withVariables (F : Forest NodeType Key) (j : Job) (vs : List EnvironmentVariable) :
    Forest NodeType Key × Job :=
  vs.foldl (fun made v => withEnvironmentVariable made.1 made.2 v) (F, j)

theorem withVariables_concat (F : Forest NodeType Key) (j : Job) (vs : List EnvironmentVariable)
    (v : EnvironmentVariable) :
    withVariables F j (vs ++ [v]) =
      withEnvironmentVariable (withVariables F j vs).1 (withVariables F j vs).2 v := by
  unfold withVariables
  rw [List.foldl_append]
  rfl

/-- What a copy of the job `j` with the variables `L` stores. -/
def storedWith (F : Forest NodeType Key) (j : Job) (L : List EnvironmentVariable) (k : Key) :
    Option (Value NodeType) :=
  if k = variablesKey then some ((catalog.format variablesKey).write L) else F.explicit? j.val k

/-- Some variables `vs` have been added to the job `j`, and the job that came of it is `i`. -/
structure Added (W : Session NodeType Key) (j : Job) (vs : List EnvironmentVariable)
    (made : Forest NodeType Key × Job) : Prop where
  reachable : Reachable catalog ⟨made.1, W.drafts⟩
  holds : Session.Holds ⟨made.1, W.drafts⟩ made.2.val
  same : ∀ {n}, W.forest.knows n = true → Same W.forest made.1 n
  reads : environmentVariables made.1 made.2 = vs.foldl addVariable (environmentVariables W.forest j)
  id : made.1.explicit? made.2.val .id = W.forest.explicit? j.val .id
  leaf : ∀ {k}, isLeaf k = true → catalog.isSticky k = false → k ≠ variablesKey →
    made.1.explicit? made.2.val k = W.forest.explicit? j.val k
  varied : vs ≠ [] → Varied W.forest j (storedWith W.forest j (environmentVariables made.1 made.2)) made.1 made.2

theorem Added.nothing (h : Reachable catalog W) (hj : W.Holds j.val) : Added W j [] (W.forest, j) where
  reachable := h
  holds := hj
  same := fun hn => Same.refl hn
  reads := rfl
  id := rfl
  leaf := fun _ _ _ => rfl
  varied := fun hne => absurd rfl hne

variable {made : Forest NodeType Key × Job} {v : EnvironmentVariable} {vs : List EnvironmentVariable}

theorem Added.varied_one_more (h : Added W j vs made) (v : EnvironmentVariable) :
    Varied W.forest j (storedWith W.forest j (addVariable (environmentVariables made.1 made.2) v))
      (withEnvironmentVariable made.1 made.2 v).1 (withEnvironmentVariable made.1 made.2 v).2 := by
  have hnext := varied_adjust h.reachable h.holds (a := variablesKey) (by decide)
    (addVariable (environmentVariables made.1 made.2) v)
  refine hnext.rebase (fun n hn => (h.same hn).known) h.id fun {k} hk hs => ?_
  unfold storedWith
  split
  · rfl
  · next hne => exact h.leaf hk hs hne

/-- **One more variable is added at the end, in place of those with its key.** -/
theorem Added.concat (h : Added W j vs made) (hv : '=' ∉ v.key.toList) :
    Added W j (vs ++ [v]) (withEnvironmentVariable made.1 made.2 v) := by
  have hadds := Adds.adjust h.reachable.orderly h.holds variablesKey
    (addVariable (environmentVariables made.1 made.2) v)
  have hvaried := h.varied_one_more v
  have hkeys : ∀ w ∈ addVariable (environmentVariables made.1 made.2) v, '=' ∉ w.key.toList := by
    intro w hw
    rcases List.mem_append.mp hw with hw | hw
    · exact notMem_key_of_mem_environmentVariables (List.mem_of_mem_filter hw)
    · rw [List.mem_singleton.mp hw]
      exact hv
  have hreads : environmentVariables (withEnvironmentVariable made.1 made.2 v).1
      (withEnvironmentVariable made.1 made.2 v).2 = addVariable (environmentVariables made.1 made.2) v :=
    environmentVariables_adjust h.reachable h.holds hkeys
  constructor
  case reachable => exact hadds.reachable h.reachable
  case holds => exact (hadds.new_of_mem (List.mem_singleton.mpr rfl)).holds h.reachable.orderly rfl
  case same => exact fun hn => (h.same hn).trans (hadds.same h.reachable.orderly (h.same hn).known)
  case reads =>
    rw [List.foldl_append, ← h.reads]
    exact hreads
  case id => exact hvaried.id
  case leaf =>
    intro k hk hs hne
    rw [hvaried.leaf hk hs, storedWith, if_neg hne]
  case varied =>
    intro _
    rw [hreads]
    exact hvaried

theorem added_withVariables (h : Reachable catalog W) (hj : W.Holds j.val) (vs : List EnvironmentVariable)
    (hvs : ∀ v ∈ vs, '=' ∉ v.key.toList) : Added W j vs (withVariables W.forest j vs) := by
  induction vs using List.reverseRecOn with
  | nil => exact Added.nothing h hj
  | append_singleton vs v ih =>
      rw [withVariables_concat]
      have hstart := ih fun w hw => hvs w (List.mem_append_left _ hw)
      exact hstart.concat (hvs v (List.mem_append_right _ (List.mem_singleton.mpr rfl)))

/-- What a job is that some variables have been added to. -/
structure Supplied (F : Forest NodeType Key) (j : Job) (vs : List EnvironmentVariable) : Prop where
  reads :
    let made := withVariables F j vs
    environmentVariables made.1 made.2 =
      (environmentVariables F j).filter (fun w => w.key ∉ vs.map EnvironmentVariable.key) ++ lastOfEachKey vs
  /-- The last ones are those whose key does not come again, in the order in which they are added. -/
  last : (lastOfEachKey vs).Sublist vs ∧ ∀ v, v ∈ lastOfEachKey vs ↔
    ∃ before after, vs = before ++ v :: after ∧ v.key ∉ after.map EnvironmentVariable.key
  distinct :
    let made := withVariables F j vs
    ((environmentVariables F j).map EnvironmentVariable.key).Nodup →
      ((environmentVariables made.1 made.2).map EnvironmentVariable.key).Nodup
  id :
    let made := withVariables F j vs
    made.1.explicit? made.2.val .id = F.explicit? j.val .id
  leaf :
    let made := withVariables F j vs
    ∀ {k}, isLeaf k = true → catalog.isSticky k = false → k ≠ variablesKey →
      made.1.explicit? made.2.val k = F.explicit? j.val k
  varied :
    let made := withVariables F j vs
    vs ≠ [] → Varied F j (storedWith F j (environmentVariables made.1 made.2)) made.1 made.2
  same : ∀ {n}, F.knows n = true → Same F (withVariables F j vs).1 n

/-- **Of the variables of a job those stay whose key is not added, and of the added ones the last of each
key.** -/
theorem supplied_withVariables (hJ : JobReachable J) (hj : J.Holds j.val)
    (hvs : ∀ v ∈ vs, '=' ∉ v.key.toList) : Supplied J.forest j vs := by
  have h := added_withVariables hJ.reachable hj vs hvs
  have hreads : environmentVariables (withVariables J.forest j vs).1 (withVariables J.forest j vs).2 =
      addVariables (environmentVariables J.forest j) vs := by
    rw [h.reads, foldl_addVariable]
  constructor
  case reads => exact hreads
  case last => exact ⟨lastOfEachKey_sublist vs, fun _ => mem_lastOfEachKey_iff⟩
  case distinct =>
    intro made hdistinct
    rw [hreads]
    exact nodup_addVariables hdistinct vs
  case id => exact h.id
  case leaf => exact h.leaf
  case varied => exact h.varied
  case same => exact h.same

def stocked : Session NodeType Key :=
  ⟨[.bare .job, .set ⟨1, .job⟩ .id (.text "Fast"),
      .set ⟨1, .job⟩ variablesKey (.list [.text "LEVEL=1", .text "MODE=a=b", .text "LEVEL=2"]),
      .set ⟨1, .job⟩ (.specimen .alpha) (.int 7)].foldl (Operation.run catalog) .empty, []⟩

theorem jobReachable_stocked : JobReachable stocked := by
  refine JobReachable.run .refl ?_
  decide

theorem supplied_stocked :
    (JobReachable stocked ∧ stocked.Holds (⟨1, .job⟩ : Node NodeType) ∧
      ∀ v ∈ [EnvironmentVariable.mk "LEVEL" "3", ⟨"TRACE", "="⟩, ⟨"LEVEL", "4"⟩], '=' ∉ v.key.toList) ∧
      Supplied stocked.forest ⟨⟨1, .job⟩, rfl⟩ [⟨"LEVEL", "3"⟩, ⟨"TRACE", "="⟩, ⟨"LEVEL", "4"⟩] := by
  have hj : stocked.Holds (⟨1, .job⟩ : Node NodeType) := by decide +kernel
  have hvs : ∀ v ∈ [EnvironmentVariable.mk "LEVEL" "3", ⟨"TRACE", "="⟩, ⟨"LEVEL", "4"⟩],
      '=' ∉ v.key.toList := by decide +kernel
  exact ⟨⟨jobReachable_stocked, hj, hvs⟩, supplied_withVariables jobReachable_stocked hj hvs⟩

theorem foreign_withVariables_stocked :
    let made := withVariables stocked.forest ⟨⟨1, .job⟩, rfl⟩ [⟨"TRACE", "="⟩]
    (JobReachable stocked ∧ stocked.Holds (⟨1, .job⟩ : Node NodeType) ∧
      catalog.isSticky (.specimen .alpha) = false) ∧
      stocked.forest.explicit? ⟨1, .job⟩ (.specimen .alpha) = some (.int 7) ∧
      made.1.explicit? made.2.val (.specimen .alpha) = none := by
  have hj : stocked.Holds (⟨1, .job⟩ : Node NodeType) := by decide +kernel
  refine ⟨⟨jobReachable_stocked, hj, rfl⟩, rfl, ?_⟩
  decide +kernel

end Job

end LayeredConfig
