import Shuvpi.AgentLoopAccount
import Shuvpi.BoundedOutput
import Shuvpi.CborReencode
import Shuvpi.ClientRuns
import Shuvpi.CompactionCuts
import Shuvpi.ConsumerRuns
import Shuvpi.DeltaUntrustedSafe
import Shuvpi.DurableHistory
import Shuvpi.DurableVersions
import Shuvpi.ExactEdits
import Shuvpi.FacetOrder
import Shuvpi.FileMutationRuns
import Shuvpi.FrameApply
import Shuvpi.FramingDecoder
import Shuvpi.GeneratedIds
import Shuvpi.MainScreenFrames
import Shuvpi.PicoCollapse
import Shuvpi.PicoPublication
import Shuvpi.PrefixScan
import Shuvpi.RemoteRuns
import Shuvpi.RouterRemovals
import Shuvpi.ServiceCodecRuns
import Shuvpi.SessionChain
import Shuvpi.SessionMigration
import Shuvpi.SessionReload
import Shuvpi.SettingsWrites
import Shuvpi.ShellOutputWhole
import Shuvpi.SqliteParity
import Shuvpi.StackSizes
import Shuvpi.StateReplica
import Shuvpi.StdinBufferChunks
import Shuvpi.StdinBufferInput
import Shuvpi.ToolOutput
import Shuvpi.TransformPairing
import Shuvpi.TreeWalks
import Shuvpi.TruncateExact
