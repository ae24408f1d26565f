import BindCheck.Main
import BindCheck.Proofs.Acceptance
import BindCheck.Proofs.ChildKinds
import BindCheck.Proofs.DocumentOrder
import BindCheck.Proofs.KeywordCase
import BindCheck.Proofs.LargerScopes
import BindCheck.Proofs.LayoutIndependence
import BindCheck.Proofs.Lossless
import BindCheck.Proofs.NodeText
import BindCheck.Proofs.Output
import BindCheck.Proofs.ReadRegions
import BindCheck.Proofs.Renaming
import BindCheck.Proofs.ReportedLines
import BindCheck.Proofs.Sessions
import BindCheck.Proofs.Spans
import BindCheck.Proofs.SupportGate
import BindCheck.Proofs.Completions
import BindCheck.Proofs.CorrectPrefix
import BindCheck.Proofs.ClauseBoundaries
import BindCheck.Proofs.ClauseRows
import BindCheck.Proofs.NeutralProjection
import BindCheck.Proofs.Insertion
import BindCheck.Proofs.Occurrences
import BindCheck.Proofs.UpdateTargets
import BindCheck.Proofs.CallAttempts
import BindCheck.Proofs.LineBreaks
import BindCheck.Proofs.NumberLiterals
import BindCheck.Proofs.Resumption
import BindCheck.Proofs.StringLiterals
import BindCheck.Proofs.ReportReading
import BindCheck.Proofs.Traversal
import BindCheck.Proofs.FunctionNames
import BindCheck.Proofs.YieldedNames
