import FactHierarchy.Engine
import FactHierarchy.Form.Configuration
import FactHierarchy.Form.Report
import FactHierarchy.Form.Rule
import FactHierarchy.Form.Term
import FactHierarchy.Proofs.Configuration
import FactHierarchy.Proofs.Form.RoundTrip
import FactHierarchy.Proofs.Graph.ListModel
import FactHierarchy.Proofs.History.Growth
import FactHierarchy.Proofs.Path.LoopsAbove
import FactHierarchy.Proofs.Reversion.Effect
import FactHierarchy.Proofs.Reversion.RoundTrip
import FactHierarchy.Proofs.Run.Annotated
import FactHierarchy.Proofs.Run.Commute
import FactHierarchy.Proofs.Run.Idempotent
import FactHierarchy.Proofs.Run.Undisturbed
import FactHierarchy.Proofs.TakenNames.Occurrences
import FactHierarchy.Proofs.Digest.Frame
import FactHierarchy.Proofs.Digest.Hash
import FactHierarchy.Proofs.PropertyId
import FactHierarchy.Proofs.Annotation.Omissions
import FactHierarchy.Proofs.Annotation.Schemas
import FactHierarchy.Proofs.Term.NTriples
import FactHierarchy.Proofs.Graph.Slots
import FactHierarchy.Proofs.Hierarchy.WayUp
import FactHierarchy.Proofs.Hierarchy.Steps
