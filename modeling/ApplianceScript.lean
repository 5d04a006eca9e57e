import ApplianceScript.Main
import ApplianceScript.Proofs.AllOrNothing
import ApplianceScript.Proofs.BuiltPlan
import ApplianceScript.Proofs.Completion
import ApplianceScript.Proofs.Dependence
import ApplianceScript.Proofs.DirectoryGrowth
import ApplianceScript.Proofs.DiskLookup
import ApplianceScript.Proofs.Emission
import ApplianceScript.Proofs.Lists
import ApplianceScript.Proofs.Ownership
import ApplianceScript.Proofs.ParsedPaths
import ApplianceScript.Proofs.Placement
import ApplianceScript.Proofs.Precedence
import ApplianceScript.Proofs.Replacement
import ApplianceScript.Proofs.Resolution
import ApplianceScript.Proofs.RunOutcome
import ApplianceScript.Proofs.SpelledPaths
import ApplianceScript.Proofs.StagedFiles
import ApplianceScript.Proofs.Traversal
import ApplianceScript.Proofs.WeightOrder
import ApplianceScript.Proofs.SequentialOrders
import ApplianceScript.Proofs.PlaceholderNames
import ApplianceScript.Proofs.UnresolvedNames
import ApplianceScript.Proofs.BuildOutcome
import ApplianceScript.Proofs.Agreement
import ApplianceScript.Proofs.Compilation
import ApplianceScript.Proofs.Noninterference
import ApplianceScript.Proofs.LineByLine
import ApplianceScript.Proofs.Stamping
import ApplianceScript.Proofs.StampedCommands
import ApplianceScript.Proofs.SessionHistory
import ApplianceScript.Proofs.RunModes
import ApplianceScript.Proofs.WrittenFiles
import ApplianceScript.Proofs.ScriptLines
import ApplianceScript.Proofs.FallingWeights
import ApplianceScript.Proofs.RouteCounts
import ApplianceScript.Proofs.LongerMarkers
import ApplianceScript.Proofs.Recompilation
import ApplianceScript.Proofs.Trails
import ApplianceScript.Proofs.CycleReports
import ApplianceScript.Proofs.CyclicWeights
import ApplianceScript.Proofs.Pruning
import ApplianceScript.Proofs.Rearrangement
import ApplianceScript.Proofs.ByteOrder
import ApplianceScript.Proofs.PassBudgets
import ApplianceScript.Proofs.MarkerChains
import ApplianceScript.Proofs.MergedTables
import ApplianceScript.Proofs.BarredWrites
import ApplianceScript.Proofs.LastWrites
import ApplianceScript.Proofs.LoadedLibraries
import ApplianceScript.Proofs.FailureReports
import ApplianceScript.Proofs.OfferedModules
import ApplianceScript.Proofs.EndingWalks
