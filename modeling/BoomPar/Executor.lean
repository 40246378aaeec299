-- SUMMARY: The executor: its state, the critical sections of submitters, workers, shutdown and deletion, and the system of its threads.
import Mathlib.Logic.Function.Basic
import BoomPar.JobQueue
import BoomPar.Job
import BoomPar.Monitor.ChannelThreads

/-!
# `executor` and `worker`

One executor with any number of clients and workers. A thread is between two of
its critical sections, under `shutdown_mutex`, `active_worker_count_mutex` or
the lock of the job queue; what a thread does on its own in between belongs to
the section before or after it. A log records what becomes of the jobs.
-/

namespace BoomPar

open Monitor

inductive ExecutorType where
  | fixedThreadCountExecutor
  | cachedThreadPoolExecutor
  deriving DecidableEq

/-- What happens to jobs and promises, in order. -/
inductive ExecutorEvent where
  /-- The push of the job succeeded. -/
  | queued (p : JobParams)
  /-- The function of the job was called. -/
  | invoked (p : JobParams)
  /-- The function of the job returned. -/
  | output (p : JobParams) (v : Ptr)
  /-- Thread `t` took the job out of the queue to cancel it. -/
  | discarded (t : ℕ) (p : JobParams)
  /-- The cancellation callback of the job was called. -/
  | cancellationCallback (p : JobParams)
  /-- Thread `t` cancelled the job. -/
  | cancelled (t : ℕ) (p : JobParams)
  /-- The result of a promise was set. -/
  | promiseSet (promise : ℕ) (v : Ptr)
  deriving DecidableEq

structure ExecutorState where
  type : ExecutorType
  emptyJobQueueWaitTimeOutInMicroSeconds : ℕ
  workerCountLimit : ℕ
  jobQ : JobQueue Job
  activeWorkerCount : ℕ
  activeWorkerCountUntilZeroWait : CondVar
  submittersCount : ℕ
  submittersCountUntilZeroWait : CondVar
  shutdownRequested : Bool
  /-- `shutdown_mutex` is held across the section of the job queue that closes it. -/
  shutdownMutexLocked : Bool
  /-- `new_executor` has not returned yet, so no client holds the executor. -/
  isNew : Bool
  promises : ℕ → Promise
  log : List ExecutorEvent

/-- What the environment decides in one step. -/
structure Env where
  queue : Outcome
  /-- The allocation of a job succeeds. -/
  allocated : Bool
  /-- The allocation of the parameters or the creation of a thread fails. -/
  threadError : Bool
  /-- What a job function returns. -/
  output : Ptr
  deriving DecidableEq

/-- Every allocation and every thread creation succeeds, and nothing times out. -/
def Env.smooth (output : Ptr) : Env := ⟨.resize 1, true, false, output⟩

namespace ExecutorState

/-- `new_executor` up to the creation of the workers; NULL when the limit is 0 or
    an allocation fails. -/
def new (type : ExecutorType) (workerCountLimit : ℕ) (maxJobQueueCapacity : WithTop ℕ)
    (emptyJobQueueWaitTimeOutInMicroSeconds : ℕ) (allocated : Bool) : Option ExecutorState :=
  if workerCountLimit = 0 ∨ allocated = false then none
  else some
    { type := type
      emptyJobQueueWaitTimeOutInMicroSeconds :=
        match type with
        -- a worker of a fixed pool waits until it can dequeue a job
        | .fixedThreadCountExecutor => blocking
        | .cachedThreadPoolExecutor => emptyJobQueueWaitTimeOutInMicroSeconds
      workerCountLimit := workerCountLimit
      jobQ := .init maxJobQueueCapacity
      activeWorkerCount := 0
      activeWorkerCountUntilZeroWait := ∅
      submittersCount := 0
      submittersCountUntilZeroWait := ∅
      shutdownRequested := false
      shutdownMutexLocked := false
      isNew := true
      promises := fun _ => .init
      log := [] }

/-! ## Sections under `active_worker_count_mutex` -/

/-- The decrement shared by `clean_up` and the failure path of `create_worker`. -/
def decrementActiveWorkerCount (s : ExecutorState) : ExecutorState :=
  { s with
    activeWorkerCount := s.activeWorkerCount - 1
    activeWorkerCountUntilZeroWait :=
      s.activeWorkerCountUntilZeroWait.broadcastIf (s.activeWorkerCount - 1 == 0) }

/-! ## Sections under `shutdown_mutex` -/

/-- The second section of `submit_job_executor`. -/
def decrementSubmittersCount (s : ExecutorState) : ExecutorState :=
  { s with
    submittersCount := s.submittersCount - 1
    submittersCountUntilZeroWait :=
      s.submittersCountUntilZeroWait.broadcastIf
        (s.submittersCount - 1 == 0 && s.shutdownRequested) }

/-! ## Jobs and promises -/

/-- `set_promised_result`, when there is a promise. -/
def fulfil (s : ExecutorState) (promise : Ptr) (v : Ptr) : ExecutorState :=
  match promise with
  | none => s
  | some p =>
    let r := (s.promises p).setPromisedResult v
    { s with
      promises := Function.update s.promises p r.1
      log := s.log ++ if r.2.1 then [.promiseSet p v] else [] }

/-- `execute_job` after its function returned `v`. -/
def finishJob (s : ExecutorState) (p : JobParams) (v : Ptr) : ExecutorState :=
  fulfil { s with log := s.log ++ [.output p v] } p.promiseForOutput v

/-- `cancel_job`, called by thread `t`. -/
def cancelJob (s : ExecutorState) (t : ℕ) (j : Job) : ExecutorState :=
  match j.cancel with
  | none => s
  | some j =>
    let called := if j.params.cancellationCallback = none then [] else
      [ExecutorEvent.cancellationCallback j.params]
    fulfil { s with log := s.log ++ called ++ [.cancelled t j.params] }
      j.params.promiseForOutput none

end ExecutorState

/-! ## Threads -/

/-- Who calls `create_worker`: the loop of `new_executor`, or the submission of a job. -/
inductive Creator where
  | newExecutor (i : ℕ)
  | submit (p : JobParams)
  deriving DecidableEq

/-- Who calls `discard_leftover_jobs`. -/
inductive Discarder where
  | shutdown
  | delete
  deriving DecidableEq

/-- Who waits for the workers to complete. -/
inductive Waiter where
  | waitForAll
  | delete
  deriving DecidableEq

inductive ExecutorResult where
  | newExecutor
  | submit (p : JobParams) (wasJobQueued : Bool)
  /-- `first` tells the caller that requested the shutdown from the later ones. -/
  | shutdown (first shutdownImmediately : Bool)
  | wait (k : Waiter) (completed : Bool)
  | worker
  deriving DecidableEq

/-- The control state of a thread, named by the section it enters next. -/
inductive ExecutorPc where
  | newExecutor (i : ℕ)
  | createWorker (k : Creator)
  | startWorker (k : Creator)
  | settleWorker (k : Creator) (error : Bool)
  | enterSubmit (p : JobParams) (timeout : ℕ)
  | push (p : JobParams) (timeout : ℕ)
  | fullWait (j : Job) (timeout : ℕ)
  | readWaiting (p : JobParams)
  | readEmpty (p : JobParams)
  | leaveSubmit (p : JobParams) (wasJobQueued : Bool)
  | enterShutdown (shutdownImmediately : Bool)
  | close (shutdownImmediately : Bool)
  | drain (shutdownImmediately : Bool)
  | discardTest (k : Discarder)
  | discardPop (k : Discarder)
  | discardCancel (k : Discarder) (j : Job)
  | enterWait (k : Waiter)
  | waitTest (k : Waiter)
  | waiting (k : Waiter)
  | workerPop
  | workerWait (timeout : ℕ)
  | workerRun (j : Job)
  | workerBusy (p : JobParams)
  | workerLeave
  | returned (r : ExecutorResult)
  deriving DecidableEq

inductive ExecutorCall where
  | submit (functionP inputP promiseForOutput cancellationCallback : Ptr)
      (submissionTimeoutInMicroseconds : ℕ)
  | shutdown (shutdownImmediately : Bool)
  | waitForAll
  | delete
  deriving DecidableEq

abbrev ExecutorConfig := Config ExecutorState ExecutorPc

/-- Where a call of thread `t` begins. -/
def ExecutorCall.start (t : ℕ) : ExecutorCall → ExecutorPc
  | .submit f i p c timeout => .enterSubmit ⟨t, f, i, p, c⟩ timeout
  | .shutdown imm => .enterShutdown imm
  | .waitForAll => .enterWait .waitForAll
  | .delete => .enterWait .delete

/-- Where a thread continues after `create_worker`. -/
def Creator.continue : Creator → ExecutorPc
  | .newExecutor i => .newExecutor (i + 1)
  | .submit p => .leaveSubmit p true

/-- Where a thread continues after `discard_leftover_jobs`. -/
def Discarder.continue : Discarder → ExecutorPc
  | .shutdown => .returned (.shutdown true true)
  | .delete => .returned (.wait .delete true)

/-- Where a thread continues when all workers are complete. -/
def Waiter.continue : Waiter → ExecutorPc
  | .waitForAll => .returned (.wait .waitForAll true)
  | .delete => .discardTest .delete

/-- Where `shutdown_executor` continues when the submitters have left. -/
def afterDrain (shutdownImmediately : Bool) : ExecutorPc :=
  if shutdownImmediately then .discardTest .shutdown else .returned (.shutdown true false)

namespace ExecutorState

/-- `submit_job_worker` and the test of the executor's type after a push. -/
def afterPush (s : ExecutorState) (j : Job) (timeout : ℕ) :
    JobQueue Job × Option Bool → ExecutorState × ExecutorPc × List ExecutorPc
  | (q, none) => ({ s with jobQ := q }, .fullWait j timeout, [])
  | (q, some false) => ({ s with jobQ := q }, .leaveSubmit j.params false, [])
  | (q, some true) =>
    ({ s with jobQ := q, log := s.log ++ [.queued j.params] },
      if s.type = .cachedThreadPoolExecutor then .readWaiting j.params
      else .leaveSubmit j.params true, [])

/-- The loop of `worker_function` after a pop. -/
def afterPop (s : ExecutorState) (timeout : ℕ) :
    JobQueue Job × Option (Option Job) → ExecutorState × ExecutorPc × List ExecutorPc
  | (q, none) => ({ s with jobQ := q }, .workerWait timeout, [])
  | (q, some none) => ({ s with jobQ := q }, .workerLeave, [])
  | (q, some (some j)) => ({ s with jobQ := q }, .workerRun j, [])

/-- The loop of `discard_leftover_jobs` after a pop by thread `t`. -/
def afterDiscardPop (s : ExecutorState) (t : ℕ) (k : Discarder) :
    JobQueue Job × Option (Option Job) → ExecutorState × ExecutorPc × List ExecutorPc
  | (q, some (some j)) =>
    ({ s with jobQ := q, log := s.log ++ [.discarded t j.params] }, .discardCancel k j, [])
  | (q, _) => ({ s with jobQ := q }, .discardTest k, [])

/-- The wait loop of `shutdown_executor`, which releases `shutdown_mutex`. -/
def drainSubmitters (s : ExecutorState) (t : ℕ) (imm : Bool) : ExecutorState × ExecutorPc :=
  if 0 < s.submittersCount then
    ({ s with submittersCountUntilZeroWait := s.submittersCountUntilZeroWait.wait t }, .drain imm)
  else (s, afterDrain imm)

/-- The wait loop of `wait_for_all_executor_workers_to_complete`. -/
def awaitWorkers (s : ExecutorState) (t : ℕ) (k : Waiter) : ExecutorState × ExecutorPc :=
  if 0 < s.activeWorkerCount then
    ({ s with activeWorkerCountUntilZeroWait := s.activeWorkerCountUntilZeroWait.wait t },
      .waiting k)
  else (s, k.continue)

end ExecutorState

def executorStep (s : ExecutorState) (t : ℕ) :
    ExecutorPc → Env → Option (ExecutorState × ExecutorPc × List ExecutorPc)
  | .newExecutor i, _ =>
    if s.type = .fixedThreadCountExecutor ∧ i < s.workerCountLimit then
      quietly (s, .createWorker (.newExecutor i))
    else quietly ({ s with isNew := false }, .returned .newExecutor)
  | .createWorker k, _ =>
    if s.activeWorkerCount < s.workerCountLimit then
      quietly ({ s with activeWorkerCount := s.activeWorkerCount + 1 }, .startWorker k)
    else quietly (s, k.continue)
  | .startWorker k, o =>
    if s.emptyJobQueueWaitTimeOutInMicroSeconds = nonBlocking ∨ o.threadError = true then
      quietly (s, .settleWorker k true)
    else some (s, .settleWorker k false, [.workerPop])
  | .settleWorker k error, _ =>
    quietly (if error then s.decrementActiveWorkerCount else s, k.continue)
  | .enterSubmit p timeout, _ =>
    if s.isNew ∨ s.shutdownMutexLocked then none
    else if s.shutdownRequested then quietly (s, .returned (.submit p false))
    else quietly ({ s with submittersCount := s.submittersCount + 1 }, .push p timeout)
  | .push p timeout, o =>
    match Job.new p o.allocated with
    | none => quietly (s, .leaveSubmit p false)
    | some j => some (s.afterPush j timeout (s.jobQ.push t j timeout false o.queue))
  | .fullWait j timeout, o =>
    if t ∈ s.jobQ.channel.fullWait then none
    else some (s.afterPush j (leftOf timeout o.queue.remaining)
      (s.jobQ.pushResume t j timeout o.queue))
  | .readWaiting p, _ =>
    quietly (s, if s.jobQ.getThreadsWaitingOnEmpty = 0 then .readEmpty p else .leaveSubmit p true)
  | .readEmpty p, _ =>
    quietly (s, if s.jobQ.isEmpty then .leaveSubmit p true else .createWorker (.submit p))
  | .leaveSubmit p wasJobQueued, _ =>
    if s.shutdownMutexLocked then none
    else quietly (s.decrementSubmittersCount, .returned (.submit p wasJobQueued))
  | .enterShutdown imm, _ =>
    if s.isNew ∨ s.shutdownMutexLocked then none
    else if s.shutdownRequested then quietly (s, .returned (.shutdown false imm))
    else quietly ({ s with shutdownRequested := true, shutdownMutexLocked := true }, .close imm)
  | .close imm, _ =>
    quietly ({ s with jobQ := s.jobQ.close, shutdownMutexLocked := false }.drainSubmitters t imm)
  | .drain imm, _ =>
    if t ∈ s.submittersCountUntilZeroWait ∨ s.shutdownMutexLocked then none
    else quietly (s.drainSubmitters t imm)
  | .discardTest k, _ => quietly (s, if s.jobQ.isEmpty then k.continue else .discardPop k)
  | .discardPop k, o => some (s.afterDiscardPop t k (s.jobQ.pop t nonBlocking false o.queue))
  | .discardCancel k j, _ => quietly (s.cancelJob t j, .discardTest k)
  | .enterWait k, _ =>
    if s.isNew ∨ s.shutdownMutexLocked then none
    else quietly (s, if s.shutdownRequested then .waitTest k else .returned (.wait k false))
  | .waitTest k, _ => quietly (s.awaitWorkers t k)
  | .waiting k, _ =>
    if t ∈ s.activeWorkerCountUntilZeroWait then none else quietly (s.awaitWorkers t k)
  | .workerPop, o =>
    some (s.afterPop s.emptyJobQueueWaitTimeOutInMicroSeconds
      (s.jobQ.pop t s.emptyJobQueueWaitTimeOutInMicroSeconds false o.queue))
  | .workerWait timeout, o =>
    if t ∈ s.jobQ.channel.emptyWait then none
    else some (s.afterPop (leftOf timeout o.queue.remaining)
      (s.jobQ.popResume t timeout o.queue))
  | .workerRun j, _ =>
    match j.execute with
    | none => quietly (s, .workerPop)
    | some j => quietly ({ s with log := s.log ++ [.invoked j.params] }, .workerBusy j.params)
  | .workerBusy p, o => quietly (s.finishJob p o.output, .workerPop)
  | .workerLeave, _ => quietly (s.decrementActiveWorkerCount, .returned .worker)
  | .returned _, _ => none

/-- A blocked thread wakes by its timeout or spuriously. -/
def executorWake (s : ExecutorState) (t : ℕ) : ExecutorPc → Option ExecutorState
  | .fullWait _ _ => some { s with jobQ := s.jobQ.wakeFull t }
  | .workerWait _ => some { s with jobQ := s.jobQ.wakeEmpty t }
  | .drain _ =>
    some { s with submittersCountUntilZeroWait := s.submittersCountUntilZeroWait.erase t }
  | .waiting _ =>
    some { s with activeWorkerCountUntilZeroWait := s.activeWorkerCountUntilZeroWait.erase t }
  | _ => none

def executorSystem : System ExecutorState ExecutorPc ExecutorCall Env where
  start := ExecutorCall.start
  step := executorStep
  wake := executorWake

/-- The thread that calls `new_executor`, at the creation of the workers. -/
def executorInit (s : ExecutorState) : ExecutorConfig := ⟨s, [.newExecutor 0]⟩

/-- The configurations that any interleaving of any calls leads to. -/
def ExecutorReach (s : ExecutorState) : ExecutorConfig → Prop :=
  executorSystem.Reach (fun _ _ => True) (executorInit s)

end BoomPar
