import Apm.Lib.Run
import Apm.Lib.UnitOfWork
import Apm.Lib.Waiting
import Apm.Lib.Async
import Apm.Lib.EventLoop
import Apm.Lib.Feed
import Apm.Lib.Lease
import Apm.Lib.Table
import Apm.Lib.RowLocks
import Apm.Lib.AsyncMutex
import Apm.Lib.Climb
import Apm.Lib.Keyset
import Apm.Lib.Trellis
import Apm.Lib.Ctc
import Apm.Lib.Drain
import Apm.Lib.Future
import Apm.Lib.Lines
import Apm.Lib.Fields
import Apm.Lib.Stock
import Apm.Lib.Window
import Apm.Lib.Json
import Apm.Core.Time
import Apm.Core.Quota
import Apm.Streaks.Logic
import Apm.Sessions.Activity
import Apm.Sessions.Service
import Apm.Sessions.Billing
import Apm.Sessions.Metering
import Apm.Sessions.History
import Apm.Sessions.DailyQuota
import Apm.Sessions.Replay
import Apm.Sessions.UserRow
import Apm.Sessions.Start
import Apm.Streaks.Delivery
import Apm.Conversation.Persist
import Apm.Conversation.TurnService
import Apm.Conversation.StreamTurn
import Apm.Conversation.Windows
import Apm.Idempotency.Repository
import Apm.Conversation.Router
import Apm.Conversation.Ownership
import Apm.Conversation.TurnLock
import Apm.Conversation.ReplayOnce
import Apm.Conversation.LockNames
import Apm.Conversation.Retention
import Apm.Debriefs.Cefr
import Apm.Debriefs.Service
import Apm.Debriefs.Workers
import Apm.Debriefs.GeneratedOnce
import Apm.Auth.Service
import Apm.Auth.Steps
import Apm.Auth.Rotation
import Apm.Auth.CredentialChange
import Apm.Auth.ReuseDetection
import Apm.Review.Scheduler
import Apm.Review.Ladder
import Apm.VoiceData.Purge
import Apm.VoiceData.Erasure
import Apm.VoiceData.Final
import Apm.VoiceData.Locking
import Apm.VoiceData.Deadlock
import Apm.VoiceData.Export
import Apm.Offline.OfflineTurnSync
import Apm.Offline.OfflineTurnQueue
import Apm.Offline.TurnEndpoint
import Apm.Offline.Wedge
import Apm.Offline.Loss
import Apm.Mobile.TokenRefresher
import Apm.Mobile.Steps
import Apm.Mobile.Account
import Apm.Mobile.Custody
import Apm.Mobile.Logout
import Apm.Mobile.AuthViewModel
import Apm.Streaming.Frames
import Apm.Streaming.Client
import Apm.Streaming.RoundTrip
import Apm.Recording.Service
import Apm.Recording.Controllers
import Apm.Recording.HotMicrophone
import Apm.Takes.Device
import Apm.Takes.Stores
import Apm.Takes.Isolation
import Apm.Takes.Alone
import Apm.Takes.AtRest
import Apm.Takes.Sweep
import Apm.Takes.Vault
import Apm.Takes.VaultCalls
import Apm.Takes.EraseAll
import Apm.Takes.Marks
import Apm.Takes.PendingPurge
import Apm.Pronunciation.Gop
import Apm.Pronunciation.Alignment
import Apm.Pronunciation.Scorer
import Apm.Llm.Sentences
import Apm.Llm.Fallback
import Apm.Shadowing.Diff
import Apm.Debriefs.Analyzer
import Apm.Debriefs.Enrichment
import Apm.Onboarding.Placement
import Apm.Auth.ResetTokens
import Apm.Reply.OneVoice
import Apm.Reply.State
import Apm.Reply.Cancelled
import Apm.Reply.Refresh
import Apm.Recording.Takes
import Apm.Practice.Coaching
import Apm.Practice.Guess
import Apm.Lib.Regex
import Apm.Core.PromptSafety
import Apm.Lib.SlidingWindow
import Apm.Core.RateLimit
import Apm.Lib.IpAddress
import Apm.Api.ClientIp
import Apm.Conversation.TtsCache
import Apm.Lib.Lru
import Apm.Lib.Expiring
import Apm.Lib.Calls
import Apm.Llm.Factory
import Apm.Core.RedisRateLimit
import Apm.Analytics.Events
import Apm.Lib.History
import Apm.Api.BodyLimit
import Apm.Consent.VoiceConsent
import Apm.Lib.AsyncSemaphore
import Apm.Pronunciation.Service
import Apm.Lib.Tags
import Apm.Core.UntrustedBlock
import Apm.Conversation.Prompt
import Apm.Llm.JsonObject
import Apm.Missions.Compiler
import Apm.Auth.Login
import Apm.Auth.Register
import Apm.Shadowing.Attempt
import Apm.Lib.Counter
import Apm.Progress.Proof
import Apm.Progress.Snapshot
import Apm.Recording.Outline
