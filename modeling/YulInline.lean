import YulInline.Ast.Build
import YulInline.Cli.Disk
import YulInline.Main
import YulInline.Proofs.FreshNames
import YulInline.Proofs.Histories
import YulInline.Proofs.Tree
import YulInline.Proofs.FlatCopies
import YulInline.Proofs.BodyCopies
import YulInline.Proofs.References
import YulInline.Proofs.Scope
import YulInline.Proofs.Expansion
import YulInline.Proofs.Accounts
import YulInline.Proofs.Progress
import YulInline.Proofs.Visits
import YulInline.Proofs.DirectExpansion
import YulInline.Proofs.Expanding
import YulInline.Proofs.CoupledExpansions
import YulInline.Proofs.SuspendedBodies
import YulInline.Proofs.InPlace
import YulInline.Proofs.Runs
import YulInline.Proofs.Acceptance
import YulInline.Proofs.IntroducedNames
import YulInline.Proofs.Placements
import YulInline.Proofs.ScopedExpansion
import YulInline.Proofs.ScopePreservation
import YulInline.Proofs.Computations
import YulInline.Proofs.Semantics
import YulInline.Proofs.Meaning
import YulInline.Proofs.RenamedMeaning
import YulInline.Proofs.ExpandedMeaning
import YulInline.Proofs.Callees
import YulInline.Proofs.MeaningPreservation
import YulInline.Proofs.CallSites
import YulInline.Proofs.Termination
import YulInline.Proofs.Reentrancy
import YulInline.Proofs.DemandedCalls
import YulInline.Proofs.DirectRuns
import YulInline.Proofs.RemainingCalls
import YulInline.Proofs.KeptStructure
import YulInline.Proofs.Likeness
import YulInline.Proofs.AlikeCopies
import YulInline.Proofs.Lockstep
import YulInline.Proofs.NameIndependence
import YulInline.Proofs.NamesInUse
import YulInline.Proofs.Repetition
import YulInline.Proofs.UntouchedModules
import YulInline.Proofs.PendingFunctions
import YulInline.Proofs.AlikeExpansions
import YulInline.Proofs.OrderIndependence
import YulInline.Proofs.ArgumentOrder
import YulInline.Proofs.ObservedRuns
import YulInline.Proofs.NameOrigins
import YulInline.Proofs.PrivateVariables
import YulInline.Proofs.PrivateRuns
import YulInline.Proofs.JsonTexts
import YulInline.Proofs.JsonReading
import YulInline.Proofs.JsonWriting
import YulInline.Proofs.Rearrangements
import YulInline.Proofs.StoredLayouts
import YulInline.Proofs.StoredDepths
import YulInline.Proofs.RoundTrip
import YulInline.Proofs.StoredNames
import YulInline.Proofs.Lexemes
import YulInline.Proofs.RenderedLexemes
import YulInline.Proofs.ReadableExpressions
import YulInline.Proofs.Readability
import YulInline.Proofs.Nesting
import YulInline.Proofs.CommandLine
import YulInline.Proofs.InlineArguments
import YulInline.Proofs.Files
import YulInline.Proofs.Delivery
