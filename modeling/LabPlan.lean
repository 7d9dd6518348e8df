import LabPlan.Description.Export
import LabPlan.Description.Variant
import LabPlan.Proofs.Description.Accumulation
import LabPlan.Proofs.Description.ShortForms
import LabPlan.Proofs.Entrypoint
import LabPlan.Proofs.Referring
import LabPlan.Proofs.Reordering
import LabPlan.Proofs.Search.Blanks
import LabPlan.Proofs.Search.Finding
import LabPlan.Proofs.Search.Positions
import LabPlan.Proofs.Search.Rendering
import LabPlan.Proofs.StepGraph.Kinds
import LabPlan.Proofs.Types.Fields
import LabPlan.Proofs.Types.Resolver
import LabPlan.Proofs.Types.Sameness
import LabPlan.Proofs.Types.Writing
import LabPlan.Proofs.Validity
import LabPlan.Value.Content
