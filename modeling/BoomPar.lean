import BoomPar.QueueThreads
import BoomPar.QueueWakeups
import BoomPar.QueueFifo
import BoomPar.QueueLimit
import BoomPar.QueueContainers
import BoomPar.Job
import BoomPar.Executor
import BoomPar.ExecutorMoves
import BoomPar.ExecutorCounters
import BoomPar.ExecutorShutdown
import BoomPar.ExecutorJobs
import BoomPar.ExecutorFate
import BoomPar.ExecutorGrowth
import BoomPar.ExecutorGraceful
import BoomPar.PeriodicJob
import BoomPar.PeriodicThreads
import BoomPar.PeriodicPause
import BoomPar.AlarmJob
import BoomPar.Monitor.EventMachine
import BoomPar.PeriodicEvents
import BoomPar.AlarmThreads
import BoomPar.JobStops
import BoomPar.PeriodicShots
import BoomPar.AlarmUpdates
import BoomPar.AlarmWakeUps
import BoomPar.PromiseThreads
import BoomPar.ResourceUsageLimiter
import BoomPar.LimiterThreads
import BoomPar.LimiterAccounts
import BoomPar.LimiterWakeups
import BoomPar.LimiterDeletion
import BoomPar.Monitor.Stream
import BoomPar.SyncPipe
import BoomPar.PipeStream
import BoomPar.PipeWakeups
import BoomPar.Monitor.Bisimulation
import BoomPar.QueueCapacity
import BoomPar.QueueAgreement
import BoomPar.PipeProgress
import BoomPar.PromiseCallbacks
import BoomPar.LimiterRequest
import BoomPar.PeriodicPeriods
import BoomPar.JobOutcome
import BoomPar.JobFulfilment
import BoomPar.Monitor.Fairness
import BoomPar.PromiseProgress
import BoomPar.QueueProgress
import BoomPar.ExecutorProgress
import BoomPar.ExecutorService
import BoomPar.ExecutorOrder
import BoomPar.PipeService
import BoomPar.LimiterService
import BoomPar.Monitor.EventService
import BoomPar.AlarmService
import BoomPar.PeriodicService
import BoomPar.CompletionQueue
import BoomPar.CompletionService
