import LayeredConfig.Job.Variation

/-!
# Mutators

A mutator is a name and a bag of overrides. Applied to a job it makes a new job that holds the values of
the job with the overrides on top, under the id of the job and the name of the mutator. The bag is a node
like any other: two mutators that are made from one share it.
-/

namespace LayeredConfig

/-- A named set of overrides. -/
structure Mutator where
  id : String
  /-- The bag of the overrides. -/
  overrides : Node NodeType
deriving DecidableEq, Repr

namespace Mutator

variable (F : Forest NodeType Key)

/-- A mutator without overrides. -/
def new (id : String) : Forest NodeType Key × Mutator :=
  let (F, bag) := F.bare .bag
  (F, ⟨id, bag⟩)

/-- The mutator that overrides what a job stores, sticky characteristics apart. -/
def ofJob (j : Job) : Forest NodeType Key × Mutator :=
  let keys := (catalog.closure .job).filter fun k => !catalog.isSlot k && !catalog.isSticky k
  let (G, bag) := F.draft catalog .bag (Job.copySteps F j keys)
  (G, ⟨Job.resolvedId F .default j, bag⟩)

/-- Adds an override to the bag of a mutator. -/
def add (m : Mutator) (k : Key) (x : k.Content) : JobOutcome Mutator :=
  if catalog.isSticky k then (.error (.stickyOverride k), F)
  else if catalog.isSlot k then (.error (.notALeaf k), F)
  else if F.has m.overrides k then (.error (.duplicateOverride m.id k), F)
  else
    match F.set catalog m.overrides k ((catalog.format k).write x) with
    | (.error e, F) => (.error (.node e), F)
    | (.ok (), F) => (.ok m, F)

/-- The job with the overrides of a mutator on top. -/
def apply (m : Mutator) (j : Job) : Forest NodeType Key × Job :=
  let id := Job.resolvedId F .default j ++ "-" ++ m.id
  let (F, bag) := Job.toBag F j
  Job.draft F (Job.stepsOfBag F bag ++ [.merge m.overrides, .id id])

/-- The jobs with the overrides of a mutator on top, in order. -/
def applyAll (m : Mutator) : Forest NodeType Key → List Job → Forest NodeType Key × List Job
  | F, [] => (F, [])
  | F, j :: js =>
    let (F, k) := apply F m j
    let (F, ks) := applyAll m F js
    (F, k :: ks)

theorem applyAll_cons (m : Mutator) (j : Job) (js : List Job) :
    applyAll m F (j :: js) = ((applyAll m (apply F m j).1 js).1,
      (apply F m j).2 :: (applyAll m (apply F m j).1 js).2) := by
  rw [applyAll]

end Mutator

end LayeredConfig
