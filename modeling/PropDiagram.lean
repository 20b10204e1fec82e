import PropDiagram.Main
import PropDiagram.Version
import PropDiagram.Proofs.Assignment
import PropDiagram.Proofs.Formula.Grammar
import PropDiagram.Proofs.Formula.Evaluation
import PropDiagram.Proofs.Diagram.Models
import PropDiagram.Proofs.Diagram.Composition
import PropDiagram.Proofs.Formula.Viability
import PropDiagram.Proofs.Formula.Printer
import PropDiagram.Proofs.Diagram.Dependence
import PropDiagram.Proofs.FromText.Faults
import PropDiagram.Proofs.Diagram.TruthTable
import PropDiagram.Proofs.Diagram.Merging
import PropDiagram.Proofs.Diagram.Redrawing
import PropDiagram.Proofs.Diagram.Constancy
import PropDiagram.Proofs.Formula.FirstFault
import PropDiagram.Proofs.Spacing
import PropDiagram.Proofs.Diagram.Refusal
import PropDiagram.Proofs.Formula.Names
import PropDiagram.Proofs.Formula.Awaited
import PropDiagram.Proofs.Formula.Depiction
import PropDiagram.Proofs.Enumeration
import PropDiagram.Proofs.RandomAccess
import PropDiagram.Proofs.Formula.NestingLimit
import PropDiagram.Proofs.Drawing.Additions
import PropDiagram.Proofs.Drawing.FreshNumbers
import PropDiagram.Proofs.Placement
