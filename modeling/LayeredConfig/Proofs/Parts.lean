import LayeredConfig.Catalog
import LayeredConfig.Proofs.Paths

/-!
# What jobs know

What a job knows is what the types that it is made of declare (`Job.mem_closure_job`), and what its collector
knows is what collectors declare (`Job.mem_closure_gc`). So a property of all that jobs know is checked type by
type, and nothing has to be enumerated for it.
-/

namespace LayeredConfig

namespace Job

open Relation

variable {k : Key} {t : NodeType}

/-- The types that jobs are made of. -/
def parts : List NodeType := [.job, .accuracy, .environment, .gc, .infrastructure, .diagnoser, .flags, .run]

theorem leadsTo_parts : ∀ t ∈ parts, ReflTransGen catalog.LeadsTo .job t := by
  have hsteps : ∀ t ∈ parts, t = .job ∨ catalog.LeadsTo .job t ∨
      ∃ u ∈ parts, catalog.LeadsTo .job u ∧ catalog.LeadsTo u t := by decide
  intro t ht
  rcases hsteps t ht with rfl | hstep | ⟨u, -, hfirst, hsecond⟩
  · exact .refl
  · exact .single hstep
  · exact .tail (.single hfirst) hsecond

theorem mem_closure_job : k ∈ catalog.closure .job ↔ ∃ t ∈ parts, k ∈ catalog.declarations t := by
  refine Schema.mem_closure_iff_of_types (by decide) leadsTo_parts ?_
  have hall : ∀ t ∈ parts, ∀ c ∈ catalog.declarations t, (catalog.slotType? c).all (· ∈ parts) = true := by decide
  intro t ht c hc u hu
  have hslot := hall t ht c hc
  rw [hu] at hslot
  exact of_decide_eq_true hslot

theorem mem_closure_gc : k ∈ catalog.closure .gc ↔ k ∈ catalog.declarations .gc :=
  Schema.mem_closure_iff_of_leaves (by decide)

theorem reaches_job (ht : t ∈ parts) (hk : k ∈ catalog.declarations t) : catalog.reaches .job k = true :=
  decide_eq_true (mem_closure_job.mpr ⟨t, ht, hk⟩)

/-- What holds of all that the parts of jobs declare, holds of all that jobs know. -/
theorem forall_known {P : Key → Prop} (h : ∀ t ∈ parts, ∀ c ∈ catalog.declarations t, P c)
    (hk : catalog.reaches .job k = true) : P k := by
  obtain ⟨t, ht, hk⟩ := mem_closure_job.mp (of_decide_eq_true hk)
  exact h t ht k hk

end Job

end LayeredConfig
