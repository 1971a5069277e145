import LayeredConfig.Catalog.Presets
import LayeredConfig.Forest.Request
import LayeredConfig.Job.Defaults
import LayeredConfig.Job.Mutator
import LayeredConfig.Job.Session
import LayeredConfig.Proofs.Attaching
import LayeredConfig.Proofs.Clones
import LayeredConfig.Proofs.Comparison
import LayeredConfig.Proofs.Composing
import LayeredConfig.Proofs.Copying
import LayeredConfig.Proofs.Defaulting
import LayeredConfig.Proofs.Detaching
import LayeredConfig.Proofs.DigitRuns
import LayeredConfig.Proofs.Drafting
import LayeredConfig.Proofs.Enumerating
import LayeredConfig.Proofs.Flattening
import LayeredConfig.Proofs.Freezing
import LayeredConfig.Proofs.GeneratedIds
import LayeredConfig.Proofs.InsertionOrder
import LayeredConfig.Proofs.Interchange
import LayeredConfig.Proofs.Isolation
import LayeredConfig.Proofs.Jobs
import LayeredConfig.Proofs.Layering
import LayeredConfig.Proofs.Mutating
import LayeredConfig.Proofs.Ownership
import LayeredConfig.Proofs.Packages
import LayeredConfig.Proofs.Parting
import LayeredConfig.Proofs.Paths
import LayeredConfig.Proofs.Refusal
import LayeredConfig.Proofs.Replacing
import LayeredConfig.Proofs.Resolving
import LayeredConfig.Proofs.SameValues
import LayeredConfig.Proofs.Showing
import LayeredConfig.Proofs.SourceTexts
import LayeredConfig.Proofs.Typing
import LayeredConfig.Proofs.Variables
import LayeredConfig.Proofs.Varying
import LayeredConfig.Proofs.Enumerating
import LayeredConfig.Proofs.Parts
