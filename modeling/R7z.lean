import R7z.Effect.Machine
import R7z.LazySections
import R7z.FolderGraph
import R7z.FolderLayout
import R7z.FolderTables
import R7z.Order.Tiling
import R7z.LayoutPartition
import R7z.FileStreams
import R7z.EntryMapping
import R7z.EntryTraversal
import R7z.Wire.Relocate
import R7z.Write.Model
import R7z.Write.Header
import R7z.FilesRoundTrip
import R7z.Write.Encode
import R7z.Write.Writer
import R7z.Write.Builder
import R7z.Write.Frames
import R7z.WriterNames
import R7z.StreamsRoundTrip
import R7z.LayoutsRoundTrip
import R7z.SubstreamDigests
import R7z.HeaderResume
import R7z.MethodNames
import R7z.Listing
import R7z.Capacity
import R7z.Order.Runs
import R7z.Update.Preserved
import R7z.Update.Checks
import R7z.ListingRows
import R7z.Update.Staging
import R7z.Update.Acceptance
import R7z.Decode.Budget
import R7z.Decode.Coders
import R7z.Decode.Plan
import R7z.Decode.ActiveFolder
import R7z.Session
import R7z.Decode.Steps
import R7z.Open
import R7z.Decode.Accounting
import R7z.Decode.Balance
import R7z.Decode.Eager
import R7z.Charges
import R7z.OpenLimits
import R7z.ReadSessions
import R7z.VaruintCodec
import R7z.FilesScan
import R7z.Order.Topological
import R7z.GraphOrder
import R7z.Bcj2Channels
import R7z.ChainPlan
import R7z.CoderLists
import R7z.FolderSizes
import R7z.StreamedFolders
import R7z.PlannedFolders
import R7z.SolidLimits
import R7z.Write.Options
import R7z.AcceptedOptions
import R7z.Effect.Reader
import R7z.Order.Groups
import R7z.Wire.Cbc
import R7z.Decode.ByteSwap
import R7z.Decode.ExactSize
import R7z.Decode.Aes
import R7z.Decode.AesReader
import R7z.SafeNames
import R7z.SignatureScan
import R7z.Order.Pieces
import R7z.Volumes
import R7z.Write.Spool
import R7z.SpoolCharges
import R7z.SpoolRuns
import R7z.PropertyOrder
import R7z.EntryNames
import R7z.ExternalData
import R7z.SessionDecoders
import R7z.BatchReads
import R7z.TestCommand
import R7z.Update.PlanOutcome
import R7z.WrittenOutput
import R7z.Effect.Loops
import R7z.Effect.Writer
import R7z.OperationCopy
import R7z.Order.Globs
import R7z.Wildcard
import R7z.Write.Lzma2
import R7z.Lzma2Encoder
import R7z.FailedWriter
import R7z.BuilderPlan
import R7z.Update.KeptMetadata
import R7z.Update.CopiedFolders
