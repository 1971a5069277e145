import LayeredConfig.Forest.Request
import LayeredConfig.Proofs.Jobs

/-!
# Refusals

Whatever is refused leaves every node as it was. An operation on nodes checks before its first change, so that
a refused one leaves the very forest behind (`Operation.eq_of_refused`). An operation on jobs may have made
new trees when it is refused, but has then changed none that was there.
-/

namespace LayeredConfig

variable {τ κ : Type} [DecidableEq τ] [DecidableEq κ] {S : Schema τ κ} {F G : Forest τ κ}

open Forest

/-- **A refused operation on nodes changes nothing.** -/
theorem Operation.eq_of_refused {o : Operation τ κ} {e : Failure τ κ} (h : o.outcome S F = (.error e, G)) :
    G = F := by
  have hrefused : (o.outcome S F).1 = .error e := congrArg Prod.fst h
  have hG : (o.outcome S F).2 = G := congrArg Prod.snd h
  rw [← hG]
  clear h hG
  cases o with
  | set n c v => exact eq_of_set_error hrefused
  | clear n c =>
      simp only [outcome] at hrefused ⊢
      rcases clear_cases S F n c with ⟨-, he⟩ | ⟨-, he⟩ | ⟨-, -, he⟩
      · rw [he]
      · rw [he]
      · rw [he] at hrefused
        cases hrefused
  | detach n c =>
      simp only [outcome] at hrefused ⊢
      rcases detach_cases S F n c with ⟨-, he⟩ | ⟨-, he⟩ | ⟨-, -, he⟩ | ⟨d, -, -, he⟩
      · rw [he]
      · rw [he]
      · rw [he]
      · rw [he] at hrefused
        cases hrefused
  | freeze n =>
      simp only [outcome] at hrefused ⊢
      rcases freeze_cases S F n with ⟨e', he⟩ | ⟨-, he⟩
      · rw [he]
      · rw [he] at hrefused
        cases hrefused
  | unfreezeCopy n =>
      simp only [outcome] at hrefused ⊢
      rcases unfreezeCopy_cases S F n with ⟨e', he⟩ | ⟨-, he⟩
      · rw [he]
      · rw [he] at hrefused
        cases hrefused
  | applyAll n sources =>
      simp only [outcome] at hrefused ⊢
      rcases applyAll_cases S F n sources with ⟨-, he⟩ | ⟨-, he⟩
      · rw [he]
      · rw [he] at hrefused
        cases hrefused
  | bare t => cases hrefused
  | create t => cases hrefused
  | child n c => cases hrefused
  | childOrNew n c => cases hrefused

theorem Request.eq_of_refused {q : Request τ κ} {e : Failure τ κ} (h : q.outcome S F = (.error e, G)) :
    G = F := by
  cases q with
  | operation o => exact Operation.eq_of_refused h
  | retype n t => exact (congrArg Prod.snd h).symm
  | resolve r n c => exact (congrArg Prod.snd h).symm
  | resolveContent r n c => exact (congrArg Prod.snd h).symm
  | compare policy m n => exact (congrArg Prod.snd h).symm

def Forest.Unchanged (F G : Forest τ κ) : Prop := ∀ n, F.knows n = true → Same F G n

namespace Session

theorem unchanged_jobOperation {W : Session NodeType Key} {G : Forest NodeType Key} {e : JobFailure}
    (hW : Orderly catalog W) (o : JobOperation) (ho : ∀ n ∈ o.operands, W.Holds n)
    (h : o.outcome W.forest = (.error e, G)) : Unchanged W.forest G := by
  have hG : (o.outcome W.forest).2 = G := congrArg Prod.snd h
  have hadds : o.targets = [] → Unchanged W.forest (o.outcome W.forest).2 := fun ht _ hn =>
    (Adds.jobOperation hW o ho ht).same hW hn
  rw [← hG]
  cases o with
  | addOverride m k x =>
      rcases Mutator.add_cases W.forest m k x with ⟨e', he⟩ | ⟨-, he⟩
      · rw [JobOperation.outcome, JobOperation.answered, he]
        exact fun _ hn => Same.refl hn
      · rw [JobOperation.outcome, JobOperation.answered, he] at h
        cases h
  | _ => exact hadds rfl

/-- **Whatever is refused leaves every node as it was.** -/
theorem unchanged_of_refused {J : Session NodeType Key} (hJ : JobReachable J) :
    (∀ {q : Request τ κ} {e G}, q.outcome S F = (.error e, G) → Unchanged F G) ∧
      ∀ {o : JobOperation} {e G}, (∀ n ∈ o.operands, J.Holds n) → o.outcome J.forest = (.error e, G) →
        Unchanged J.forest G := by
  constructor
  · intro q e G h n hn
    rw [Request.eq_of_refused h]
    exact Same.refl hn
  · intro o e G ho h
    exact unchanged_jobOperation hJ.reachable.orderly o ho h

theorem unchanged_rejected :
    (joined.forest.child? ⟨1, .tree⟩ (.specimen .left) = some ⟨2, .tree⟩ ∧ JobReachable warm) ∧
      (∃ e G, (Request.operation (.set ⟨1, .tree⟩ (.specimen .left) (.node ⟨1, .tree⟩))).outcome catalog
        joined.forest = (.error e, G) ∧ Unchanged joined.forest G) ∧
      ∃ e G, (JobOperation.addOverride ⟨"Warm", ⟨1, .bag⟩⟩ (.run .warmupCount) (3 : Int32)).outcome warm.forest =
        (.error e, G) ∧ Unchanged warm.forest G := by
  obtain ⟨hrequest, hjob⟩ := unchanged_of_refused (S := catalog) (F := joined.forest) jobReachable_warm
  have hjoined := hrequest (q := .operation (.set ⟨1, .tree⟩ (.specimen .left) (.node ⟨1, .tree⟩))) rfl
  have hwarm := hjob (o := .addOverride ⟨"Warm", ⟨1, .bag⟩⟩ (.run .warmupCount) (3 : Int32)) (by decide) rfl
  exact ⟨⟨by decide, jobReachable_warm⟩, ⟨_, _, rfl, hjoined⟩, ⟨_, _, rfl, hwarm⟩⟩

end Session

end LayeredConfig
