import AmigaFleet.Lib.Run
import AmigaFleet.Lib.Framing
import AmigaFleet.Lib.Tenancy
import AmigaFleet.Lib.Base64
import AmigaFleet.Mcpd.Jobs
import AmigaFleet.Mcpd.JobSafety
import AmigaFleet.Mcpd.Clients
import AmigaFleet.Mcpd.Exec
import AmigaFleet.Mcpd.Outputs
import AmigaFleet.Mcpd.ExecOutput
import AmigaFleet.Mcpd.B64
import AmigaFleet.Mcpd.CJson
import AmigaFleet.Mcpd.Frame
import AmigaFleet.Mcpd.FsRead
import AmigaFleet.Host.Json
import AmigaFleet.Host.Upload
import AmigaFleet.Host.UploadRemote
import AmigaFleet.Host.UploadExact
import AmigaFleet.Host.Transport
import AmigaFleet.Host.TransportSteps
import AmigaFleet.Host.Alignment
import AmigaFleet.Host.Correlation
import AmigaFleet.Host.Delivery
import AmigaFleet.Host.UploadFrames
import AmigaFleet.Lib.Budget
import AmigaFleet.Mcpd.Discovery
import AmigaFleet.Mcpd.DiscoveryBudget
import AmigaFleet.Lib.JsonText
import AmigaFleet.Host.Discover
import AmigaFleet.Mcpd.DiscoveryReply
import AmigaFleet.Host.FrameStream
import AmigaFleet.Mcpd.Input
import AmigaFleet.Lib.Holding
import AmigaFleet.Mcpd.InputRelease
import AmigaFleet.Mcpd.InputCalls
import AmigaFleet.Mcpd.InputChord
import AmigaFleet.Host.Gdb
import AmigaFleet.Host.GdbReplies
import AmigaFleet.Host.GdbOnce
import AmigaFleet.Lib.Changes
import AmigaFleet.Mcpd.Events
import AmigaFleet.Mcpd.EventChain
import AmigaFleet.Host.Quorum
import AmigaFleet.Host.PyStr
import AmigaFleet.Host.Volumes
import AmigaFleet.Mcpd.StartFailure
import AmigaFleet.Host.ErrorClosure
import AmigaFleet.Host.Settle
import AmigaFleet.Host.Download
import AmigaFleet.Lib.Prog
import AmigaFleet.Host.Kicklayout
import AmigaFleet.Host.Install
import AmigaFleet.Host.InstallRun
import AmigaFleet.Lib.Hex
import AmigaFleet.Mcpd.FsExamine
import AmigaFleet.Host.UploadVerify
import AmigaFleet.Mcpd.InflateExact
import AmigaFleet.Lib.JsonPrint
import AmigaFleet.Lib.Utf8
import AmigaFleet.Mcpd.PrintText
import AmigaFleet.Mcpd.FsList
import AmigaFleet.Mcpd.MachineText
import AmigaFleet.Lib.Region
import AmigaFleet.Mcpd.B64Text
import AmigaFleet.Lib.Quoting
import AmigaFleet.Mcpd.CommandLine
import AmigaFleet.Host.SandboxCommand
import AmigaFleet.Lib.Blocks
import AmigaFleet.Lib.Sha256
import AmigaFleet.Mcpd.Sha256
import AmigaFleet.Mcpd.OutputPaging
import AmigaFleet.Host.DebugRing
import AmigaFleet.Mcpd.Streaming
import AmigaFleet.Host.SandboxBatch
import AmigaFleet.Host.SandboxTrap
import AmigaFleet.Host.KicklayoutEdit
import AmigaFleet.Host.KicklayoutModules
import AmigaFleet.Host.KicklayoutPatch
import AmigaFleet.Host.StartupSteps
import AmigaFleet.Host.StartupRun
import AmigaFleet.Host.Sources
import AmigaFleet.Host.SourceImage
import AmigaFleet.Lib.Approach
import AmigaFleet.Mcpd.EventsWait
import AmigaFleet.Mcpd.FsWalk
import AmigaFleet.Mcpd.InputMotion
import AmigaFleet.Mcpd.InputText
import AmigaFleet.Mcpd.McuLine
import AmigaFleet.Mcpd.ReadPa
import AmigaFleet.Host.DiscoverLoop
import AmigaFleet.Host.PruneLogs
import AmigaFleet.Mcpd.InputMalformed
import AmigaFleet.Host.SerialCapture
import AmigaFleet.Host.Archive
import AmigaFleet.Host.PyWords
import AmigaFleet.Host.Snapshots
import AmigaFleet.Host.QemuCmdline
import AmigaFleet.Host.TomlRender
import AmigaFleet.Lib.InsertionSort
import AmigaFleet.Mcpd.JobListing
import AmigaFleet.Mcpd.FsChunk
import AmigaFleet.Host.Endpoint
import AmigaFleet.Mcpd.FsShell
import AmigaFleet.Host.RingTail
import AmigaFleet.Host.ArchivedCall
import AmigaFleet.Lib.Chain
import AmigaFleet.Mcpd.TaskSnapshot
import AmigaFleet.Host.Backtrace
import AmigaFleet.Lib.Crc32
import AmigaFleet.Lib.Rows
import AmigaFleet.Lib.Png
import AmigaFleet.Mcpd.Screen
import AmigaFleet.Mcpd.ScreenFile
import AmigaFleet.Lib.Mailbox
import AmigaFleet.Mcpd.CrashHook
import AmigaFleet.Mcpd.Connection
import AmigaFleet.Host.Session
import AmigaFleet.Host.SessionResult
import AmigaFleet.Host.SessionOnce
import AmigaFleet.Lib.Keyed
import AmigaFleet.Host.QemuLifecycle
import AmigaFleet.Host.QemuOwnership
import AmigaFleet.Mcpd.ExecKill
import AmigaFleet.Mcpd.KillSafety
import AmigaFleet.Mcpd.KillAnswers
import AmigaFleet.Host.SandboxRun
import AmigaFleet.Host.SandboxCaptures
import AmigaFleet.Lib.Follow
import AmigaFleet.Host.SerialPolling
import AmigaFleet.Mcpd.FsWrite
import AmigaFleet.Host.DownloadVerify
import AmigaFleet.Host.Transfers
