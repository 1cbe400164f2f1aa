import AFSv1.Foundations.Bytes
import AFSv1.Foundations.IStream
import AFSv1.Foundations.Journal
import AFSv1.Foundations.InodeFS
import AFSv1.Tables.Hashpath
import AFSv1.Tables.IsDirty
import AFSv1.Tables.IsDirtyRecovery
import AFSv1.Tables.LastModified
import AFSv1.Tables.LastModifiedJournal
import AFSv1.Tables.LastModifiedRoundTrip
import AFSv1.Tables.LastModifiedCrash
import AFSv1.Protocol
import AFSv1.Server.Handlers
import AFSv1.Foundations.InodeNames
import AFSv1.Server.Publish
import AFSv1.Server.Mixing
import AFSv1.Client.Transfer
import AFSv1.Server.Sequential
import AFSv1.Server.Download
import AFSv1.Foundations.Agents
import AFSv1.Client.State
import AFSv1.Client.Operations
import AFSv1.Client.Evolution
import AFSv1.Client.Handles
import AFSv1.Client.TimestampCheck
import AFSv1.Client.TimestampSound
import AFSv1.Client.Alone
import AFSv1.Client.UnsentData
import AFSv1.Client.Upload
import AFSv1.Client.Truncation
import AFSv1.Client.HandleUpload
import AFSv1.Client.Writers
import AFSv1.Server.Lock
import AFSv1.Client.CacheFiles
import AFSv1.Client.OpenHandles
import AFSv1.Client.Diary
import AFSv1.Client.CrashConsistency
import AFSv1.Client.LocalMarker
import AFSv1.Client.Threads
import AFSv1.Foundations.Halting
import AFSv1.Server.Alone
import AFSv1.RoundTrip
import AFSv1.Server.TempNames
import AFSv1.Server.Lives
import AFSv1.Server.WholeVersions
import AFSv1.Reports
import AFSv1.Foundations.Chunks
import AFSv1.Foundations.TreePaths
import AFSv1.Server.Exported
import AFSv1.Client.OpenResult
import AFSv1.Creation
import AFSv1.Unlinking
import AFSv1.Attributes
import AFSv1.Client.Exits
import AFSv1.BrokenTransfers
import AFSv1.Client.CrashOperations
import AFSv1.Client.CrashRecovery
import AFSv1.Client.CrashCompletion
import AFSv1.Server.Linearization
import AFSv1.Foundations.Service
import AFSv1.Deployment
import AFSv1.Refinement
import AFSv1.Foundations.Moments
import AFSv1.Client.Freshness
import AFSv1.CloseToOpen
import AFSv1.Server.Progress
import AFSv1.Foundations.Durable
import AFSv1.Client.Persistence
import AFSv1.Client.PersistentRuns
import AFSv1.Client.OpenFile
import AFSv1.Foundations.StandingDirs
import AFSv1.Server.Restart
