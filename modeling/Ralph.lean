import Ralph.Base64
import Ralph.CharBoundary
import Ralph.CharIndices
import Ralph.Chat.Animation
import Ralph.Chat.Args
import Ralph.Chat.Cell
import Ralph.Chat.CellOutput
import Ralph.Chat.CellStream
import Ralph.Chat.ChatTurn
import Ralph.Chat.Command
import Ralph.Chat.Downscale
import Ralph.Chat.FenceParts
import Ralph.Chat.FenceScan
import Ralph.Chat.KittyChunks
import Ralph.Chat.Leading
import Ralph.Chat.Loop
import Ralph.Chat.LoopRuns
import Ralph.Chat.Prepare
import Ralph.Chat.Queue
import Ralph.Chat.QueuedRoutes
import Ralph.Chat.Route
import Ralph.Chat.Sanitizer
import Ralph.Chat.SentMessage
import Ralph.Chat.ShellCell
import Ralph.Chat.ShellReplay
import Ralph.Chat.ShellState
import Ralph.Chat.SocketFiles
import Ralph.Chat.StatusBar
import Ralph.Chat.StatusLayout
import Ralph.Chat.StatusLine
import Ralph.Chat.TurnRuns
import Ralph.Chat.Typed
import Ralph.Chat.UsageTail
import Ralph.Chat.Words
import Ralph.ChatMemory.Agreement
import Ralph.ChatMemory.Archive
import Ralph.ChatMemory.ArchiveLoad
import Ralph.ChatMemory.ArchiveReads
import Ralph.ChatMemory.Basic
import Ralph.ChatMemory.CompactJson
import Ralph.ChatMemory.Cover
import Ralph.ChatMemory.Ids
import Ralph.ChatMemory.Index
import Ralph.ChatMemory.IndexFile
import Ralph.ChatMemory.Json
import Ralph.ChatMemory.Log
import Ralph.ChatMemory.Lookup
import Ralph.ChatMemory.Nap
import Ralph.ChatMemory.NapRuns
import Ralph.ChatMemory.Notice
import Ralph.ChatMemory.PageBudget
import Ralph.ChatMemory.Pending
import Ralph.ChatMemory.Range
import Ralph.ChatMemory.RangePages
import Ralph.ChatMemory.Refresh
import Ralph.ChatMemory.ScanEntries
import Ralph.ChatMemory.Search.Normalized
import Ralph.ChatMemory.Search.Pages
import Ralph.ChatMemory.Search.Query
import Ralph.ChatMemory.Search.Request
import Ralph.ChatMemory.Search.Scan
import Ralph.ChatMemory.Search.Traversal
import Ralph.ChatMemory.SplitView
import Ralph.ChatMemory.Store
import Ralph.ChatMemory.StoreWrites
import Ralph.ChatMemory.Summary
import Ralph.ChatMemory.Tools
import Ralph.ChatMemory.TornWrite
import Ralph.ChatMemory.Tree
import Ralph.ChatMemory.View
import Ralph.ChatMemory.ViewBudget
import Ralph.ChatMemory.ViewGrowth
import Ralph.ChatMemory.ViewTiles
import Ralph.Chunk.Basic
import Ralph.Chunk.BatchStream
import Ralph.Chunk.Directive
import Ralph.Chunk.DirectiveSplit
import Ralph.Chunk.LostLines
import Ralph.Chunk.Sections
import Ralph.Chunk.Streaming
import Ralph.Chunked
import Ralph.CommonPrefix
import Ralph.Decimal
import Ralph.Descent
import Ralph.Fallible
import Ralph.Hex
import Ralph.HttpChunks
import Ralph.Inbox.Calls
import Ralph.Inbox.Delivery
import Ralph.Inbox.Disk
import Ralph.Inbox.Faults
import Ralph.Inbox.Json
import Ralph.Inbox.Ledger
import Ralph.Inbox.ReportHeaders
import Ralph.Interleaving
import Ralph.JsonPointer
import Ralph.JsonValue
import Ralph.Lines
import Ralph.ListSums
import Ralph.LongestSuffix
import Ralph.Loop
import Ralph.LossyLines
import Ralph.Machine
import Ralph.Meter
import Ralph.Program
import Ralph.Raster
import Ralph.Render.Compounds
import Ralph.Render.Wrap
import Ralph.Schedule.After
import Ralph.Schedule.At
import Ralph.Schedule.Basic
import Ralph.Schedule.Cancelling
import Ralph.Schedule.Closing
import Ralph.Schedule.Threads
import Ralph.Schedule.WorkerRuns
import Ralph.Schedule.Workers
import Ralph.SendIt.Drive
import Ralph.SendIt.DriveRuns
import Ralph.SendIt.Evidence
import Ralph.SendIt.Parse
import Ralph.SendIt.Plan
import Ralph.SendIt.SentLines
import Ralph.Snapshot.CapOutput
import Ralph.Snapshot.Ranges
import Ralph.Snapshot.TurnRefs
import Ralph.Snapshot.Turns
import Ralph.SortedMap
import Ralph.Splice
import Ralph.Switch
import Ralph.Text
import Ralph.TextSize
import Ralph.Thread.Basic
import Ralph.Thread.Commands
import Ralph.Thread.ForkPoint
import Ralph.Thread.Json
import Ralph.Thread.Merging
import Ralph.Tiling
import Ralph.Utf8Decoder
import Ralph.Utf8Encode
import Ralph.Utf8Lossy
import Ralph.Utf8Prefix
import Ralph.Utf8Strict
import Ralph.Watch.Restore
import Ralph.Watch.Tail
import Ralph.Wire.Build
import Ralph.Wire.Diff
import Ralph.Wire.DiffSegments
import Ralph.Wire.DiffTtl
import Ralph.Wire.Headers
import Ralph.Wire.ModelPrice
import Ralph.Wire.Price
import Ralph.Wire.Proxy
import Ralph.Wire.ProxyRuns
import Ralph.Wire.Read
import Ralph.Wire.Redacted
import Ralph.Wire.RelayBody
import Ralph.Wire.Response
import Ralph.Wire.Sse
import Ralph.Wire.Usage
import Ralph.Words
import Ralph.Worker.Check
import Ralph.Worker.CheckRuns
import Ralph.Worker.CodexBilling
import Ralph.Worker.CodexCalls
import Ralph.Worker.CodexInterrupts
import Ralph.Worker.CodexLate
import Ralph.Worker.CodexPrompts
import Ralph.Worker.CodexPump
import Ralph.Worker.CodexRpc
import Ralph.Worker.CodexSettle
import Ralph.Worker.CodexTurns
import Ralph.Worker.CodexUsage
import Ralph.Worker.CostRows
import Ralph.Worker.CostTotals
import Ralph.Worker.CostViews
import Ralph.Worker.CostWindows
import Ralph.Worker.Liveness
import Ralph.Worker.Markers
import Ralph.Worker.MergedCosts
import Ralph.Worker.OpencodeInterrupts
import Ralph.Worker.OpencodeResync
import Ralph.Worker.OpencodeTurns
import Ralph.Worker.Ownership
import Ralph.Worker.PermissionQueue
import Ralph.Worker.PermissionReplies
import Ralph.Worker.PermissionReply
import Ralph.Worker.PermissionRuns
import Ralph.Worker.ProcessTree
import Ralph.Worker.PromptQueue
import Ralph.Worker.Report
import Ralph.Worker.SessionSpend
import Ralph.Worker.Stall
import Ralph.Worker.StallRuns
import Ralph.Worker.TranscriptUsage
import Ralph.Worker.UsageFaults
import Ralph.Worker.UsagePieces
import Ralph.Worker.WorkerCosts
import Ralph.Worklist
