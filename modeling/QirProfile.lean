import QirProfile.Main
import QirProfile.Document.Number
import QirProfile.Proofs.Allocator.RestrictedReuse
import QirProfile.Proofs.Allocator.Conservation
import QirProfile.Proofs.Allocator.Refusals
import QirProfile.Proofs.Program.References
import QirProfile.Proofs.Profile
import QirProfile.Proofs.Validation
import QirProfile.Proofs.Fold
import QirProfile.Proofs.Transform.DeadCodeVerified
import QirProfile.Proofs.Transform.CallSites
import QirProfile.Proofs.Transform.RulesVerified
import QirProfile.Proofs.Execution.FoldedControlFlow
import QirProfile.Proofs.Assembly.RoundTrip
import QirProfile.Proofs.Settings.Layers
import QirProfile.Proofs.Transform.ReleasedOnce
import QirProfile.Proofs.Transform.ElementAccesses
import QirProfile.Proofs.Transform.Housekeeping
import QirProfile.Proofs.Transform.RequiredAddresses
import QirProfile.Proofs.Transform.ComparedResults
import QirProfile.Proofs.Transform.EntryPoints
import QirProfile.Proofs.Transform.ReachableCode
import QirProfile.Proofs.Execution.FoldedThrough
import QirProfile.Proofs.Transform.EntriesKept
import QirProfile.Proofs.Program.ExactCopies
import QirProfile.Proofs.Transform.ResolvedPhis
import QirProfile.Proofs.Execution.FoldedEdges
import QirProfile.Proofs.Fold.Definedness
import QirProfile.Proofs.Fold.WideWords
import QirProfile.Proofs.Cleanup.SecondRuns
import QirProfile.Proofs.Assembly.ResolvedNames
import QirProfile.Proofs.Assembly.DefinedOnce
import QirProfile.Proofs.Assembly.Overflow
import QirProfile.Proofs.Assembly.PrintedTypes
import QirProfile.Proofs.Assembly.Composing
import QirProfile.Proofs.Assembly.CallGroups
import QirProfile.Proofs.Assembly.PrintedSymbols
import QirProfile.Proofs.Settings.Refusals
import QirProfile.Proofs.Assembly.Progress
