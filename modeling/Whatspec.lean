import Whatspec.Library.Interruption
import Whatspec.Library.Disk
import Whatspec.Library.SortedMap
import Whatspec.Text
import Whatspec.Fetch.Cache
import Whatspec.Fetch.KnownAnswers
import Whatspec.Fetch.CacheCommit
import Whatspec.Fetch.WasmStore
import Whatspec.Fetch.Download
import Whatspec.Library.Action
import Whatspec.Library.Multimap
import Whatspec.Store.Lock
import Whatspec.Store.Restore
import Whatspec.Store.RestorePaths
import Whatspec.Store.Matching
import Whatspec.Store.RestoreExact
import Whatspec.Library.Reports
import Whatspec.Mex.PresenceTree
import Whatspec.Mex.PresenceMerge
import Whatspec.Mex.MergeOrder
import Whatspec.Mex.Publish
import Whatspec.Mex.Opacity
import Whatspec.Library.Rendering
import Whatspec.Library.SortedSet
import Whatspec.Proto.Entity
import Whatspec.Library.Grouping
import Whatspec.Library.HashOrder
import Whatspec.Library.Component
import Whatspec.Proto.Relocate
import Whatspec.Proto.Moves
import Whatspec.Proto.Placement
import Whatspec.Proto.ProtocValid
import Whatspec.Proto.TypeNames
import Whatspec.Library.Scopes
import Whatspec.Proto.References
import Whatspec.Proto.RefsPreserved
import Whatspec.Library.Lines
import Whatspec.Store.SetHash
import Whatspec.Fetch.Hosts
import Whatspec.Fetch.HostsSound
import Whatspec.Store.Captures
import Whatspec.Store.CapturesSafe
import Whatspec.Codegen.Wam
import Whatspec.Codegen.WamDecodes
import Whatspec.Library.Json
import Whatspec.Contract.DocumentDiff
import Whatspec.Library.Pieces
import Whatspec.Contract.DiffExact
import Whatspec.Appstate.Value
import Whatspec.Appstate.Validation
import Whatspec.Appstate.JavaScript
import Whatspec.Appstate.Lower
import Whatspec.Appstate.Lowering
import Whatspec.Appstate.LoweringScopes
import Whatspec.Appstate.LowerSound
import Whatspec.Library.LabelFlow
import Whatspec.Scan.MixinIndex
import Whatspec.Scan.MixinFolds
import Whatspec.Scan.MixinReports
import Whatspec.Codegen.Cascades
import Whatspec.Appstate.LowerFunction
import Whatspec.Codegen.AppstateValidation
import Whatspec.Codegen.AppstateValidationSound
import Whatspec.Scan.ArgPaths
import Whatspec.Scan.ArgPathSources
import Whatspec.Codegen.Accessors
import Whatspec.Codegen.ValueUnions
import Whatspec.Codegen.ValueUnionsSound
import Whatspec.Codegen.RequestBuilder
import Whatspec.Codegen.RequestTrees
import Whatspec.Codegen.RequestsWritten
import Whatspec.Codegen.RequestsAssigned
import Whatspec.Codegen.RequestsExact
import Whatspec.Library.DecisionTable
import Whatspec.Notif.UnlinkHelper
import Whatspec.Notif.UnlinkRun
import Whatspec.Notif.UnlinkSound
import Whatspec.Notif.UnlinkTable
import Whatspec.Library.Upsert
import Whatspec.Scan.CrossIndexes
import Whatspec.Scan.BundleOrder
import Whatspec.Scan.ErrorShapes
import Whatspec.Scan.ErrorsExact
import Whatspec.Notif.EnvelopeIr
import Whatspec.Notif.EnvelopeJs
import Whatspec.Notif.EnvelopeLower
import Whatspec.Notif.EnvelopeSound
import Whatspec.Notif.EnvelopeStatements
import Whatspec.Notif.EnvelopeExact
import Whatspec.Notif.GroupScope
import Whatspec.Notif.CapturedWrites
import Whatspec.Notif.ImportBindings
import Whatspec.Contract.DiffPointers
import Whatspec.Contract.ChangeReport
import Whatspec.Contract.ReportIds
import Whatspec.Mex.DefinednessExact
import Whatspec.Proto.Conservation
import Whatspec.Proto.InternalSpec
import Whatspec.Codegen.WamModule
import Whatspec.Codegen.WamNames
import Whatspec.Fetch.Bootloader
import Whatspec.Update.WasmRun
import Whatspec.Update.WasmLockConsistent
import Whatspec.Mex.Classify
import Whatspec.Mex.Readings
import Whatspec.Mex.WriteKey
import Whatspec.Mex.WriteVerdicts
import Whatspec.Scan.MixinMerge
import Whatspec.Scan.MixinRemerge
import Whatspec.Mex.Align
import Whatspec.Scan.MixinCounts
import Whatspec.Mex.Selections
import Whatspec.Mex.ResponseShape
import Whatspec.Mex.ShapeFold
import Whatspec.Fetch.ResolveRounds
import Whatspec.Fetch.SavedNames
import Whatspec.Library.Calls
import Whatspec.Mex.LiteralReader
import Whatspec.Mex.LiteralProgress
import Whatspec.Scan.ControlFlow
import Whatspec.Scan.ControlFlowSound
import Whatspec.Library.CallLoops
import Whatspec.Scan.ChildContributions
import Whatspec.Scan.ChildResolution
import Whatspec.Scan.ChildTermination
import Whatspec.Library.Cancelling
import Whatspec.Scan.RepeatedReads
import Whatspec.Scan.ReadsExact
import Whatspec.Library.StableSort
import Whatspec.Wam.CallSites
import Whatspec.Library.FirstCopies
import Whatspec.Wam.CallSitesCounted
import Whatspec.Library.Memo
import Whatspec.Scan.CascadeText
import Whatspec.Scan.ParserResolver
import Whatspec.Scan.ParserOrder
import Whatspec.Scan.Callees
import Whatspec.Scan.CalleeRuns
import Whatspec.Scan.CalleeReduction
import Whatspec.Scan.ArgumentsExact
import Whatspec.Scan.ArgumentSlots
import Whatspec.Library.IntervalSweep
import Whatspec.Codegen.ErrorCoverage
import Whatspec.Library.SeparatedWords
import Whatspec.Codegen.NameForms
import Whatspec.Scan.MemberForm
import Whatspec.Codegen.Identifiers
import Whatspec.Library.StringLiterals
import Whatspec.Codegen.FormatLiterals
import Whatspec.Text.Nesting
import Whatspec.Codegen.IntegerBands
import Whatspec.Library.ParseInt
import Whatspec.Codegen.ErrorCodes
import Whatspec.Library.Replacing
import Whatspec.Codegen.MexIds
import Whatspec.Codegen.MexIdsExact
import Whatspec.Mex.MayBeUndefined
import Whatspec.Mex.BindParams
import Whatspec.Codegen.ErrorOutcomes
import Whatspec.Codegen.ErrorOutcomesCover
import Whatspec.Proto.TextRoundTrip
import Whatspec.Update.GuardedRuns
