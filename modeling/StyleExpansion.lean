import StyleExpansion.Text
import StyleExpansion.Letters
import StyleExpansion.Reading
import StyleExpansion.Definition
import StyleExpansion.Outcome
import StyleExpansion.Bracket
import StyleExpansion.Declaration
import StyleExpansion.ApplySite
import StyleExpansion.Body
import StyleExpansion.Pass
import StyleExpansion.Context
import StyleExpansion.FileTree
import StyleExpansion.Discovery
import StyleExpansion.Build
import StyleExpansion.Options
import StyleExpansion.Command
import StyleExpansion.Main
import StyleExpansion.Proofs.Access
import StyleExpansion.Proofs.Additivity
import StyleExpansion.Proofs.ApplySites
import StyleExpansion.Proofs.Arguments
import StyleExpansion.Proofs.Balance
import StyleExpansion.Proofs.Blanking
import StyleExpansion.Proofs.CallByName
import StyleExpansion.Proofs.Ceiling
import StyleExpansion.Proofs.Clauses
import StyleExpansion.Proofs.Closers
import StyleExpansion.Proofs.Coherence
import StyleExpansion.Proofs.Delivery
import StyleExpansion.Proofs.Discovery
import StyleExpansion.Proofs.Documents
import StyleExpansion.Proofs.Expression
import StyleExpansion.Proofs.Extraction
import StyleExpansion.Proofs.FirstClause
import StyleExpansion.Proofs.Freshness
import StyleExpansion.Proofs.Gaps
import StyleExpansion.Proofs.Inert
import StyleExpansion.Proofs.Lines
import StyleExpansion.Proofs.Locality
import StyleExpansion.Proofs.MacroFree
import StyleExpansion.Proofs.Merging
import StyleExpansion.Proofs.NestedResults
import StyleExpansion.Proofs.Nesting
import StyleExpansion.Proofs.Opening
import StyleExpansion.Proofs.Outermost
import StyleExpansion.Proofs.Pipelines
import StyleExpansion.Proofs.Placeholders
import StyleExpansion.Proofs.Preambles
import StyleExpansion.Proofs.Printing
import StyleExpansion.Proofs.Registration
import StyleExpansion.Proofs.Replacement
import StyleExpansion.Proofs.Rescan
import StyleExpansion.Proofs.Rewriting
import StyleExpansion.Proofs.ScanOrder
import StyleExpansion.Proofs.Scans
import StyleExpansion.Proofs.Search
import StyleExpansion.Proofs.Segments
import StyleExpansion.Proofs.Soundness
import StyleExpansion.Proofs.Status
import StyleExpansion.Proofs.Stripping
import StyleExpansion.Proofs.Substitution
import StyleExpansion.Proofs.Survey
import StyleExpansion.Proofs.Templates
