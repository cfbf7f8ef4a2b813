import DesignTokens.Css.Plugin
import DesignTokens.Pipeline
import DesignTokens.Proofs.Css.Company
import DesignTokens.Proofs.Css.Exclusion
import DesignTokens.Proofs.Css.Families
import DesignTokens.Proofs.Css.Lines
import DesignTokens.Proofs.Css.Modes
import DesignTokens.Proofs.Css.Names
import DesignTokens.Proofs.Css.Uses
import DesignTokens.Proofs.Dependency.Cycle
import DesignTokens.Proofs.Dependency.Least
import DesignTokens.Proofs.Dependency.Order
import DesignTokens.Proofs.Document.Data
import DesignTokens.Proofs.Document.Failure
import DesignTokens.Proofs.Document.Frames
import DesignTokens.Proofs.Document.Wrapping
import DesignTokens.Proofs.Draft.Chains
import DesignTokens.Proofs.Draft.Discovery
import DesignTokens.Proofs.Draft.Groups
import DesignTokens.Proofs.Draft.Inference
import DesignTokens.Proofs.Draft.Inheritance
import DesignTokens.Proofs.Draft.Positions
import DesignTokens.Proofs.Draft.Rediscovery
import DesignTokens.Proofs.Members
import DesignTokens.Proofs.Number.Rounding
import DesignTokens.Proofs.Output.Selection
import DesignTokens.Proofs.Pipeline
import DesignTokens.Proofs.Reference
import DesignTokens.Proofs.Reference.Spelling
import DesignTokens.Proofs.Resolution.Acceptance
import DesignTokens.Proofs.Resolution.Differing
import DesignTokens.Proofs.Resolution.Integrity
import DesignTokens.Proofs.Resolution.Leaves
import DesignTokens.Proofs.Resolution.Places
import DesignTokens.Proofs.Resolution.Rearranged
import DesignTokens.Proofs.Resolution.References
import DesignTokens.Proofs.Resolution.Remembering
import DesignTokens.Proofs.Resolution.Repeating
import DesignTokens.Proofs.Resolution.Success
import DesignTokens.Proofs.Session
import DesignTokens.Proofs.Source.Layout
import DesignTokens.Proofs.Table.Placing
import DesignTokens.Proofs.Table.RoundTrip
import DesignTokens.Proofs.Tree.OfGraph
import DesignTokens.Proofs.Tree.Unfolding
import DesignTokens.Proofs.Value.Gradient
import DesignTokens.Proofs.Value.Magnitude
import DesignTokens.Settings
import DesignTokens.Table.ToData
import DesignTokens.Value.Grammar
