import Rs5cmd.Lib.Bytes
import Rs5cmd.Lib.Pool
import Rs5cmd.Lib.Turns
import Rs5cmd.Theorems.Download
import Rs5cmd.Theorems.Transfer
import Rs5cmd.Theorems.OpenedPaths
import Rs5cmd.Theorems.SyncDelete
import Rs5cmd.Theorems.Containment
import Rs5cmd.Theorems.Retention
import Rs5cmd.Theorems.Unlink
import Rs5cmd.Theorems.WriterKey
import Rs5cmd.Theorems.LastUpload
import Rs5cmd.Theorems.ListKeys
import Rs5cmd.Theorems.FastRequest
import Rs5cmd.Theorems.SyncExec
import Rs5cmd.Theorems.ExitStatus
import Rs5cmd.Theorems.ReadOnly
import Rs5cmd.Theorems.ChunkReader
import Rs5cmd.Theorems.DirRename
import Rs5cmd.Theorems.RoundTrip
import Rs5cmd.Theorems.SyncMirror
import Rs5cmd.Theorems.InodeMaps
import Rs5cmd.Theorems.ParentKeys
import Rs5cmd.Theorems.Snapshot
import Rs5cmd.Theorems.ListV1
import Rs5cmd.Theorems.Leaks
import Rs5cmd.Theorems.Readdir
import Rs5cmd.Theorems.DirtySizes
import Rs5cmd.Theorems.DirCache
import Rs5cmd.Theorems.IfNoneMatch
import Rs5cmd.Theorems.Routing
import Rs5cmd.Theorems.RelPath
import Rs5cmd.Theorems.Wildcard
import Rs5cmd.Theorems.SyncInside
import Rs5cmd.Theorems.SyncEmpty
import Rs5cmd.Theorems.LocalGlob
import Rs5cmd.Theorems.FastAccounting
import Rs5cmd.Theorems.RunOptions
import Rs5cmd.Theorems.Clobber
import Rs5cmd.Theorems.OneView
import Rs5cmd.Theorems.CachedLookup
import Rs5cmd.Theorems.GlobSemantics
import Rs5cmd.Theorems.RegexReading
import Rs5cmd.Theorems.StartAfter
import Rs5cmd.Theorems.MultiDelete
import Rs5cmd.Theorems.RbForce
import Rs5cmd.Theorems.RmObjects
import Rs5cmd.Theorems.PruneDirs
import Rs5cmd.Theorems.AllVersions
import Rs5cmd.Theorems.PartPlan
import Rs5cmd.Theorems.PipeStream
import Rs5cmd.Theorems.PipeParts
import Rs5cmd.Theorems.RateLimit
import Rs5cmd.Theorems.ReadAhead
import Rs5cmd.Theorems.KeyEncoding
import Rs5cmd.Theorems.Retry
import Rs5cmd.Theorems.WriteBack
import Rs5cmd.Theorems.SubtreeRekey
import Rs5cmd.Theorems.CleanPath
import Rs5cmd.Theorems.TreeDepth
import Rs5cmd.Theorems.IniSection
import Rs5cmd.Theorems.Dotfile
import Rs5cmd.Theorems.Timestamps
import Rs5cmd.Theorems.StoredAttributes
import Rs5cmd.Theorems.Crossing
import Rs5cmd.Theorems.LinkTree
import Rs5cmd.Theorems.LinkTransfers
import Rs5cmd.Theorems.LinksRoundTrip
import Rs5cmd.Theorems.Serial
import Rs5cmd.Theorems.FastAgrees
import Rs5cmd.Theorems.WildcardRun
import Rs5cmd.Command.Config
import Rs5cmd.Theorems.ConfigLayers
import Rs5cmd.Theorems.ImportRun
import Rs5cmd.Theorems.RunFile
import Rs5cmd.Theorems.OpenHandle
import Rs5cmd.Lib.Collect
import Rs5cmd.Command.Listings
import Rs5cmd.Theorems.ListedFiles
import Rs5cmd.Theorems.InKeyOrder
import Rs5cmd.Theorems.Totals
import Rs5cmd.Theorems.SyncAgain
import Rs5cmd.Lib.Outline
import Rs5cmd.Theorems.TreeDrawing
