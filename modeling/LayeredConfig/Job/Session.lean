import LayeredConfig.Forest.Session
import LayeredConfig.Job.Mutator

/-!
# Operations on jobs

What a client can do with jobs, mutators and bags, beside the operations on their nodes. Each of these makes
new trees, by drafts and copies; only an override that is added to a mutator goes into a tree that is there.
-/

namespace LayeredConfig

/-- An operation on jobs, mutators or bags. -/
inductive JobOperation where
  | bagOf (sources : List (Node NodeType))
  | named (id : String)
  | ofNodes (id? : Option String) (sources : List (Node NodeType))
  | toBag (j : Job)
  | ofBag (bag : Node NodeType)
  | deepClone (j : Job)
  | adjust (j : Job) (k : Key) (x : k.Content)
  | withId (j : Job) (id : String)
  | withEnvironmentVariable (j : Job) (v : EnvironmentVariable)
  | withGc (j : Job) (gc : Node NodeType)
  | withPackage (j : Job) (package : String) (version : Option String)
  | runOncePerIteration (j : Job)
  | mark (j : Job) (f : FlagField)
  | newMutator (id : String)
  | mutatorOf (j : Job)
  | addOverride (m : Mutator) (k : Key) (x : k.Content)
  | mutate (m : Mutator) (j : Job)
  | mutateAll (m : Mutator) (js : List Job)

namespace JobOperation

/-- The nodes that the client hands over. -/
def operands : JobOperation → List (Node NodeType)
  | bagOf sources => sources
  | named _ => []
  | ofNodes _ sources => sources
  | toBag j => [j.val]
  | ofBag bag => [bag]
  | deepClone j => [j.val]
  | adjust j _ _ => [j.val]
  | withId j _ => [j.val]
  | withEnvironmentVariable j _ => [j.val]
  | withGc j gc => [j.val, gc]
  | withPackage j _ _ => [j.val]
  | runOncePerIteration j => [j.val]
  | mark j _ => [j.val]
  | newMutator _ => []
  | mutatorOf j => [j.val]
  | addOverride m _ _ => [m.overrides]
  | mutate m j => [m.overrides, j.val]
  | mutateAll m js => m.overrides :: js.map Subtype.val

/-- The nodes whose trees an operation is free to change. -/
def targets : JobOperation → List (Node NodeType)
  | addOverride m _ _ => [m.overrides]
  | _ => []

variable (F : Forest NodeType Key)

/-- The new roots in what has been made, and the forest with them. -/
def made {α : Type} (nodes : α → List (Node NodeType)) (made : Forest NodeType Key × α) :
    JobOutcome (List (Node NodeType)) := (.ok (nodes made.2), made.1)

def answered {α : Type} (nodes : α → List (Node NodeType)) (answer : JobOutcome α) :
    JobOutcome (List (Node NodeType)) := (answer.1.map nodes, answer.2)

/-- The new roots that an operation answers, or why it is refused, and the forest after it. -/
def outcome : JobOperation → JobOutcome (List (Node NodeType))
  | bagOf sources => made (fun n => [n]) (F.bagOf catalog .bag sources)
  | named id => made (fun k => [k.val]) (Job.named F id)
  | ofNodes id? sources => made (fun k => [k.val]) (Job.ofNodes F id? sources)
  | toBag j => made (fun n => [n]) (Job.toBag F j)
  | ofBag bag => made (fun k => [k.val]) (Job.ofBag F bag)
  | deepClone j => made (fun k => [k.val]) (Job.deepClone F j)
  | adjust j k x => made (fun k => [k.val]) (Job.adjust F j k x)
  | withId j id => made (fun k => [k.val]) (Job.withId F j id)
  | withEnvironmentVariable j v => made (fun k => [k.val]) (Job.withEnvironmentVariable F j v)
  | withGc j gc => answered (fun k => [k.val]) (Job.withGc F j gc)
  | withPackage j package version => answered (fun k => [k.val]) (Job.withPackage F j package version)
  | runOncePerIteration j => made (fun k => [k.val]) (Job.runOncePerIteration F j)
  | mark j f => made (fun k => [k.val]) (Job.mark F j f)
  | newMutator id => made (fun m => [m.overrides]) (Mutator.new F id)
  | mutatorOf j => made (fun m => [m.overrides]) (Mutator.ofJob F j)
  | addOverride m k x => answered (fun _ => []) (Mutator.add F m k x)
  | mutate m j => made (fun k => [k.val]) (Mutator.apply F m j)
  | mutateAll m js => made (fun ks => ks.map Subtype.val) (Mutator.applyAll m F js)

end JobOperation

end LayeredConfig
