import Stencil.Text
import Stencil.Error
import Stencil.Token
import Stencil.Condition
import Stencil.Item
import Stencil.Expansion
import Stencil.Model
import Stencil.Compile
import Stencil.Document
import Stencil.FileTree
import Stencil.Workspace
import Stencil.Proofs.Results
import Stencil.Proofs.Item.Tree
import Stencil.Proofs.Model.WellFormed
import Stencil.Proofs.Outline.Layout
import Stencil.Proofs.Item.Opening
import Stencil.Proofs.Token.Delivery
import Stencil.Proofs.Token.Lines
import Stencil.Proofs.Item.Acceptance
import Stencil.Proofs.Outline.Expansion
import Stencil.Proofs.Bindings.Ledger
import Stencil.Proofs.Outline.Compilation
import Stencil.Proofs.Outline.WellFormed
import Stencil.Proofs.Evaluation.Strict
import Stencil.Proofs.Session.Sealing
import Stencil.Proofs.Session.Refinement
import Stencil.Proofs.Session.Concatenation
import Stencil.Proofs.Token.Elements
import Stencil.Proofs.Condition.Derivation
import Stencil.Proofs.Token.Splitting
import Stencil.Proofs.Model.Pieces
import Stencil.Proofs.Token.NormalForm
import Stencil.Proofs.Token.Trimming
import Stencil.Proofs.Model.RoundTrip
import Stencil.Proofs.Evaluation.Finality
import Stencil.Proofs.Token.Placement
import Stencil.Proofs.Outline.Placement
import Stencil.Proofs.Evaluation.Provenance
import Stencil.Proofs.Session.Trimming
import Stencil.Proofs.Item.Inclusion
import Stencil.Proofs.Outline.Inclusion
import Stencil.Proofs.Outline.Discarding
import Stencil.Proofs.Path
import Stencil.Proofs.Spec
import Stencil.Proofs.Workspace.History
import Stencil.Proofs.Workspace.Atomicity
import Stencil.Proofs.Outline.Validity
import Stencil.Proofs.Workspace.Transparency
import Stencil.Proofs.Evaluation.Reuse
import Stencil.Proofs.Session.Commutation
import Stencil.Proofs.Outline.Loop
import Stencil.Proofs.Token.Respelling
import Stencil.Proofs.Outline.Respelling
import Stencil.Proofs.Text
import Stencil.Proofs.Condition.RoundTrip
import Stencil.Proofs.Outline.Standing
import Stencil.Proofs.Outline.Discipline
import Stencil.Proofs.Evaluation.Descent
