import XMustard.Anchor.Locate
import XMustard.Compaction.Again
import XMustard.Evidence.ErrorScan
import XMustard.Evidence.Quotas
import XMustard.Evidence.ReduceValid
import XMustard.Evidence.SalientMatches
import XMustard.Git.BatchReader
import XMustard.Git.SourceIdentity
import XMustard.Git.Untracked
import XMustard.Index.ChangedSymbols
import XMustard.Index.CsrRoundTrip
import XMustard.Index.ElementaryCycles
import XMustard.Index.EnvelopeHeaps
import XMustard.Index.FlowWalk
import XMustard.Index.GlobParse
import XMustard.Index.ImpactPages
import XMustard.Index.Mro
import XMustard.Index.RefreshRuns
import XMustard.Index.RelativeImports
import XMustard.Index.Representative
import XMustard.Index.TracePaths
import XMustard.Kernel.AtRisk
import XMustard.Kernel.CodeAnchors
import XMustard.Kernel.Commit
import XMustard.Kernel.InvalidationMarks
import XMustard.Kernel.LineDiff
import XMustard.Kernel.ReviewQueue
import XMustard.Kernel.SeenSets
import XMustard.Kernel.WatchedRoot
import XMustard.Redact.SecretPathRules
import XMustard.Store.CodeMoves
import XMustard.Store.Erasure
import XMustard.Store.JobRuns
import XMustard.Store.Lineage
import XMustard.Store.Postings
import XMustard.Store.Ranking
import XMustard.Store.Replacement
