import LayeredConfig.Catalog
import LayeredConfig.Digest.Letters
import LayeredConfig.Forest.Bag
import LayeredConfig.Forest.Comparison
import LayeredConfig.Forest.Draft

/-!
# Jobs

A job is one complete run configuration: a root of type `job` with a node for each concern. Jobs are
hardly ever changed; one makes a new job from steps, of which the first usually copy another job.

An unnamed job gets an id from what it stores: a stem, a dash, and letters that its display presentation
determines.
-/

namespace LayeredConfig

abbrev Job := { n : Node NodeType // n.type = NodeType.job }

/-- The values that the field of a key stands for. -/
abbrev Key.Content (k : Key) : Type := (catalog.format k).Content

/-- The type of a new node is the one that was asked for. -/
theorem Forest.type_draft (F : Forest NodeType Key) (t : NodeType) (steps : List (DraftStep catalog)) :
    (F.draft catalog t steps).2.type = t := rfl

/-- The id of an unnamed node with the given display presentation. -/
def Settings.generatedId (settings : Settings) (presentation : String) : String :=
  if presentation = "" then settings.defaultName
  else settings.unnamedStem ++ "-" ++ Letters.ofText presentation settings.suffixLength

/-- The id under which a node is listed: its own if it stores one, else a generated one. -/
def Forest.resolvedId (F : Forest NodeType Key) (settings : Settings) (n : Node NodeType) : String :=
  if F.has n .id then F.idOf catalog n else settings.generatedId (F.present catalog .display n)

namespace Job

variable (F : Forest NodeType Key)

def draft (steps : List (DraftStep catalog)) : Forest NodeType Key × Job :=
  let made := F.draft catalog .job steps
  (made.1, ⟨made.2, F.type_draft .job steps⟩)

def named (id : String) : Forest NodeType Key × Job := draft F [.id id]

/-- A new job with the given sources laid over it, and an id if one is given. -/
def ofNodes (id? : Option String) (sources : List (Node NodeType)) : Forest NodeType Key × Job :=
  draft F (id?.toList.map .id ++ sources.map .merge)

def explicitId? (j : Job) : Option String := (F.explicit? j.val .id).bind Value.text?

/-- The id under which a job is listed. -/
def resolvedId (settings : Settings) (j : Job) : String := F.resolvedId settings j.val

/-- The resolved id, safe as part of a path. -/
def folderInfo (settings : Settings) (j : Job) : String := folderSafe (resolvedId F settings j)

/-- The resolved id, followed by the display presentation in parentheses unless that is empty. -/
def displayInfo (settings : Settings) (j : Job) : String :=
  let shown := F.present catalog .display j.val
  let id := resolvedId F settings j
  if shown = "" then id else id ++ "(" ++ shown ++ ")"

/-- The presentable characteristics that a job stores, sticky ones apart. -/
def customized (j : Job) : List Key :=
  (F.withValues catalog j.val).filter (catalog.isPresentable false)

/-! ## Flattening -/

/-- The steps that store the given characteristics of a job as they are stored in it. -/
def copySteps (j : Job) (keys : List Key) : List (DraftStep catalog) :=
  keys.filterMap fun k => (F.explicit? j.val k).map (.raw k)

/-- A bag with every leaf of a job, the sticky ones and the id included. -/
def toBag (j : Job) : Forest NodeType Key × Node NodeType :=
  F.draft catalog .bag (copySteps F j ((catalog.closure .job).filter fun k => !catalog.isSlot k))

/-- The steps that make a job from a bag: the bag is laid over it, and then the sticky leaves that jobs know
are stored. -/
def stepsOfBag (bag : Node NodeType) : List (DraftStep catalog) :=
  .merge bag ::
    ((F.leafEntries catalog bag).filter fun e => catalog.isSticky e.1 && catalog.reaches .job e.1).map
      fun e => .raw e.1 e.2

/-- The job that a bag flattens; what jobs do not know is left out. -/
def ofBag (bag : Node NodeType) : Forest NodeType Key × Job := draft F (stepsOfBag F bag)

/-- An unfrozen copy of a job, sticky values included. -/
def deepClone (j : Job) : Forest NodeType Key × Job :=
  let (F, bag) := toBag F j
  ofBag F bag

/-! ## Order -/

/-- Compares two jobs; two jobs have the same type, so that no comparison is refused. -/
def compareJobs (policy : OrderPolicy) (x y : Job) : Ordering :=
  match F.compareNodes catalog policy x.val y.val with
  | .ok o => o
  | .error _ => .eq

/-- Whether two jobs hold the same values. -/
def sameJob (policy : OrderPolicy) (x y : Job) : Bool := compareJobs F policy x y == .eq

end Job

end LayeredConfig
