import TimedCache.Cache.Lifecycle
import TimedCache.Cache.Together
import TimedCache.Environment
import TimedCache.Http.Service
import TimedCache.Registry
import TimedCache.SingleFlight.Callers
import TimedCache.Proofs.Contents
import TimedCache.Proofs.Recency.Chain
import TimedCache.Proofs.Recency.Arena
import TimedCache.Proofs.Recency.Operations
import TimedCache.Proofs.Cache.System
import TimedCache.Proofs.Cache.Moves
import TimedCache.Proofs.Cache.Readers
import TimedCache.Proofs.Cache.Capacity
import TimedCache.Proofs.Cache.Writers
import TimedCache.Proofs.Cache.Outline
import TimedCache.Proofs.Cache.WriteOrder
import TimedCache.Proofs.Cache.Persistence
import TimedCache.Proofs.Expiry
import TimedCache.Proofs.Recency.Generations
import TimedCache.Proofs.Sequential.Calls
import TimedCache.Proofs.Sequential.Firing
import TimedCache.Proofs.Sequential.Stranding
import TimedCache.Proofs.Sequential.Equivalence
import TimedCache.Proofs.Sequential.Aground
import TimedCache.Proofs.Cache.Agreement
import TimedCache.Proofs.Wheel.Delivery
import TimedCache.Proofs.Expiry.Heeding
import TimedCache.Proofs.Cache.Timers
import TimedCache.Proofs.Cache.Deletions
import TimedCache.Proofs.Cache.Overdue
import TimedCache.Proofs.Recency.Ranking
import TimedCache.Proofs.Cache.Departures
import TimedCache.Proofs.Cache.Windows
import TimedCache.Proofs.Expiry.Punctual
import TimedCache.Proofs.Cache.Alarms
import TimedCache.Proofs.Recency.Layout
import TimedCache.Proofs.Recency.Handles
import TimedCache.Proofs.SingleFlight.Coalescing
import TimedCache.Proofs.Cache.Accounts
import TimedCache.Proofs.Expiry.Delivery
import TimedCache.Proofs.Expiry.Requests
import TimedCache.Proofs.Wheel.Likeness
import TimedCache.Proofs.Cache.Latecomers
import TimedCache.Proofs.Cache.Loading
import TimedCache.Proofs.Sharding
import TimedCache.Proofs.Timer
import TimedCache.Proofs.Cache.BatchLoading
import TimedCache.Proofs.Http.ErrorAnswers
import TimedCache.Proofs.ReadTracker
import TimedCache.Proofs.Wheel.Stowage
import TimedCache.Proofs.Cache.Stillness
