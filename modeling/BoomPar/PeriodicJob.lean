-- SUMMARY: The periodic job: its state machine, the sections of its runner and of its clients, and the system of its threads.
import BoomPar.Platform
import BoomPar.Promise
import BoomPar.Monitor.System

/-!
# `periodic_job`

One periodic job with its runner, which is thread 0, and any number of clients.
Everything happens in sections under `job_lock`, except the function of the job
itself. A call that has begun can be overtaken on its way to `job_lock`. A log
records the events that clients send and what the runner does.
-/

namespace BoomPar

open Monitor

inductive PeriodicJobState where
  | paused
  | singleShotOnPaused
  | running
  | waiting
  | singleShotOnWaiting
  | shutdown
  deriving DecidableEq

/-- The events that can be placed in the event vector. -/
inductive PeriodicJobControl where
  | shutdown
  | pause
  | resume
  | singleShot
  deriving DecidableEq

/-- One bit for each event. -/
structure EventVector where
  shutdownCalled : Bool
  pauseCalled : Bool
  resumeCalled : Bool
  singleShotCalled : Bool
  deriving DecidableEq

/-- No event is pending. -/
def EventVector.zero : EventVector := ⟨false, false, false, false⟩

/-- Set the bit of an event. -/
def EventVector.set (v : EventVector) : PeriodicJobControl → EventVector
  | .shutdown => { v with shutdownCalled := true }
  | .pause => { v with pauseCalled := true }
  | .resume => { v with resumeCalled := true }
  | .singleShot => { v with singleShotCalled := true }

/-- A period in microseconds: any `uint64_t` but NON_BLOCKING and BLOCKING. -/
structure Period where
  microseconds : ℕ
  pos : nonBlocking < microseconds
  lt : microseconds < blocking
  deriving DecidableEq

/-- The check of a period that a client passes. -/
def Period.ofMicroseconds? (n : ℕ) : Option Period :=
  if h : nonBlocking < n ∧ n < blocking then some ⟨n, h.1, h.2⟩ else none

/-- What clients and the runner do, in order. -/
inductive PeriodicJobEvent where
  /-- The event was placed in the event vector. -/
  | sent (e : PeriodicJobControl)
  /-- The runner consumed the event vector. -/
  | updated (before after : PeriodicJobState)
  /-- The runner begins a condition wait, for a time if it waits for its period. -/
  | blocked (time : Option ℕ)
  /-- A timed wait reported the time that elapsed. -/
  | elapsed (time : ℕ)
  /-- The function of the job was called. -/
  | invoked
  /-- The function of the job returned. -/
  | ended
  deriving DecidableEq

structure PeriodicJob where
  /-- The runner waits here in the states PAUSED and WAITING. -/
  jobWait : CondVar
  state : PeriodicJobState
  periodInMicroseconds : Period
  eventVector : EventVector
  stopWait : CondVar
  log : List PeriodicJobEvent
  deriving DecidableEq

namespace PeriodicJob

/-- Append an event to the log. -/
def record (pjob : PeriodicJob) (e : PeriodicJobEvent) : PeriodicJob :=
  { pjob with log := pjob.log ++ [e] }

/-- `new_periodic_job`; NULL for a NULL function, a period that is none, or when an
    allocation or the creation of the runner fails. -/
def new (periodicJobFunction : Ptr) (periodInMicroseconds : ℕ) (allocated threadError : Bool) :
    Option PeriodicJob :=
  if periodicJobFunction = none then none
  else
    (Period.ofMicroseconds? periodInMicroseconds).bind fun period =>
      if allocated = false ∨ threadError = true then none
      else some
        { jobWait := ∅
          state := .paused
          periodInMicroseconds := period
          eventVector := .zero
          stopWait := ∅
          log := [] }

/-! ## The state machine -/

/-- The state that `consume_events_and_update_state` sets. -/
def nextState (pjob : PeriodicJob) (totalTimeWaitedFor : ℕ) : PeriodicJobState :=
  match pjob.state with
  | .paused =>
    if pjob.eventVector.shutdownCalled then .shutdown
    else if pjob.eventVector.resumeCalled then .running
    else if pjob.eventVector.singleShotCalled then .singleShotOnPaused
    else .paused
  | .singleShotOnPaused =>
    if pjob.eventVector.shutdownCalled then .shutdown
    else if pjob.eventVector.resumeCalled then .waiting
    else .paused
  | .running =>
    if pjob.eventVector.shutdownCalled then .shutdown
    else if pjob.eventVector.pauseCalled then .paused
    else .waiting
  | .waiting =>
    if pjob.eventVector.shutdownCalled then .shutdown
    else if pjob.eventVector.pauseCalled then .paused
    else if pjob.eventVector.singleShotCalled then .singleShotOnWaiting
    else if pjob.periodInMicroseconds.microseconds ≤ totalTimeWaitedFor then .running
    else .waiting
  | .singleShotOnWaiting =>
    if pjob.eventVector.shutdownCalled then .shutdown
    else if pjob.eventVector.pauseCalled then .paused
    else .waiting
  | .shutdown => .shutdown

def consumeEventsAndUpdateState (pjob : PeriodicJob) (totalTimeWaitedFor : ℕ) : PeriodicJob :=
  { pjob with
    state := pjob.nextState totalTimeWaitedFor
    eventVector := .zero
    log := pjob.log ++ [.updated pjob.state (pjob.nextState totalTimeWaitedFor)] }

/-! ## Sections of the clients -/

/-- Place an event in the event vector and signal the runner, if it is accepted. -/
def send (pjob : PeriodicJob) (e : PeriodicJobControl) (res : Bool) : PeriodicJob × Bool :=
  if res then
    ({ pjob with
        eventVector := pjob.eventVector.set e
        jobWait := pjob.jobWait.signal 0
        log := pjob.log ++ [.sent e] }, true)
  else (pjob, false)

def resumePeriodicJob (pjob : PeriodicJob) : PeriodicJob × Bool :=
  pjob.send .resume (pjob.state == .paused || pjob.state == .singleShotOnPaused)

def pausePeriodicJob (pjob : PeriodicJob) : PeriodicJob × Bool :=
  pjob.send .pause
    (pjob.state == .running || pjob.state == .waiting || pjob.state == .singleShotOnWaiting)

def singleShotPeriodicJob (pjob : PeriodicJob) : PeriodicJob × Bool :=
  pjob.send .singleShot (pjob.state == .waiting || pjob.state == .paused)

def shutdownPeriodicJob (pjob : PeriodicJob) : PeriodicJob × Bool :=
  pjob.send .shutdown (pjob.state != .shutdown)

def updatePeriodForPeriodicJob (pjob : PeriodicJob) (periodInMicroseconds : ℕ) :
    PeriodicJob × Bool :=
  match Period.ofMicroseconds? periodInMicroseconds with
  | none => (pjob, false)
  | some period =>
    ({ pjob with periodInMicroseconds := period, jobWait := pjob.jobWait.signal 0 }, true)

def getPeriodForPeriodicJob (pjob : PeriodicJob) : ℕ := pjob.periodInMicroseconds.microseconds

/-- The section that sends an event. -/
def control (pjob : PeriodicJob) : PeriodicJobControl → PeriodicJob × Bool
  | .shutdown => pjob.shutdownPeriodicJob
  | .pause => pjob.pausePeriodicJob
  | .resume => pjob.resumePeriodicJob
  | .singleShot => pjob.singleShotPeriodicJob

end PeriodicJob

/-! ## Threads -/

/-- Who waits on `stop_wait`, and for what. -/
inductive StopWaiter where
  | pauseOrShutdown
  | shutdown
  /-- `delete_periodic_job`, after it sent the shutdown. -/
  | delete
  deriving DecidableEq

/-- The state that a waiter waits for is reached. -/
def StopWaiter.stopped : StopWaiter → PeriodicJobState → Bool
  | .pauseOrShutdown, state => state == .shutdown || state == .paused
  | .shutdown, state => state == .shutdown
  | .delete, state => state == .shutdown

inductive PeriodicJobResult where
  | sent (e : PeriodicJobControl) (res : Bool)
  | updatedPeriod (res : Bool)
  | period (periodInMicroseconds : ℕ)
  | stopped (k : StopWaiter)
  deriving DecidableEq

inductive PeriodicJobCall where
  | send (e : PeriodicJobControl)
  | updatePeriod (periodInMicroseconds : ℕ)
  | getPeriod
  | waitForPauseOrShutdown
  | waitForShutdown
  | delete
  deriving DecidableEq

/-- The control state of a thread, named by the section it enters next. -/
inductive PeriodicPc where
  | runnerTop
  | runnerPaused (totalTimeWaitedFor : ℕ)
  | runnerWaiting (totalTimeWaitedFor timeToWaitFor : ℕ)
  | runnerInvoke
  | runnerInvoking
  | runnerDone
  /-- The call has begun, and has not come to `job_lock` yet. -/
  | calling (k : PeriodicJobCall)
  | send (e : PeriodicJobControl)
  | updatePeriod (periodInMicroseconds : ℕ)
  | getPeriod
  | stopTest (k : StopWaiter)
  | stopWaiting (k : StopWaiter)
  | delete
  | returned (r : PeriodicJobResult)
  deriving DecidableEq

abbrev PeriodicConfig := Config PeriodicJob PeriodicPc

/-- The section that a call enters first. -/
def PeriodicJobCall.start : PeriodicJobCall → PeriodicPc
  | .send e => .send e
  | .updatePeriod n => .updatePeriod n
  | .getPeriod => .getPeriod
  | .waitForPauseOrShutdown => .stopTest .pauseOrShutdown
  | .waitForShutdown => .stopTest .shutdown
  | .delete => .delete

namespace PeriodicJob

/-- The inner loop of `periodic_job_runner`, up to its next wait or to the release
    of `job_lock`. -/
def runnerLoop (pjob : PeriodicJob) (t totalTimeWaitedFor : ℕ) : PeriodicJob × PeriodicPc :=
  let pjob := pjob.consumeEventsAndUpdateState totalTimeWaitedFor
  match pjob.state with
  | .shutdown => ({ pjob with stopWait := pjob.stopWait.broadcast }, .runnerDone)
  | .paused =>
    ({ pjob with
        stopWait := pjob.stopWait.broadcast
        jobWait := pjob.jobWait.wait t
        log := pjob.log ++ [.blocked none] },
      .runnerPaused totalTimeWaitedFor)
  | .waiting =>
    let timeToWaitFor := uint64Sub pjob.periodInMicroseconds.microseconds totalTimeWaitedFor
    ({ pjob with
        jobWait := pjob.jobWait.wait t
        log := pjob.log ++ [.blocked (some timeToWaitFor)] },
      .runnerWaiting totalTimeWaitedFor timeToWaitFor)
  | _ => (pjob, .runnerInvoke)

/-- The wait loops on `stop_wait`. -/
def awaitStop (pjob : PeriodicJob) (t : ℕ) (k : StopWaiter) : PeriodicJob × PeriodicPc :=
  if k.stopped pjob.state then (pjob, .returned (.stopped k))
  else ({ pjob with stopWait := pjob.stopWait.wait t }, .stopWaiting k)

end PeriodicJob

/-- One section of thread `t`; `remaining` is what a timed wait leaves of its time. -/
def periodicStep (pjob : PeriodicJob) (t : ℕ) :
    PeriodicPc → ℕ → Option (PeriodicJob × PeriodicPc × List PeriodicPc)
  | .runnerTop, _ => quietly (pjob.runnerLoop t 0)
  | .runnerPaused total, _ =>
    if t ∈ pjob.jobWait then none else quietly (pjob.runnerLoop t total)
  | .runnerWaiting total timeToWaitFor, remaining =>
    if t ∈ pjob.jobWait then none
    else
      let waitTimeElapsed := uint64Sub timeToWaitFor (leftOf timeToWaitFor remaining)
      quietly ((pjob.record (.elapsed waitTimeElapsed)).runnerLoop t
        (uint64Add total waitTimeElapsed))
  | .runnerInvoke, _ => quietly (pjob.record .invoked, .runnerInvoking)
  | .runnerInvoking, _ => quietly (pjob.record .ended, .runnerTop)
  | .runnerDone, _ => none
  | .calling k, _ => quietly (pjob, k.start)
  | .send e, _ => quietly ((pjob.control e).1, .returned (.sent e (pjob.control e).2))
  | .updatePeriod n, _ =>
    quietly ((pjob.updatePeriodForPeriodicJob n).1,
      .returned (.updatedPeriod (pjob.updatePeriodForPeriodicJob n).2))
  | .getPeriod, _ => quietly (pjob, .returned (.period pjob.getPeriodForPeriodicJob))
  | .stopTest k, _ => quietly (pjob.awaitStop t k)
  | .stopWaiting k, _ => if t ∈ pjob.stopWait then none else quietly (pjob.awaitStop t k)
  | .delete, _ => quietly (pjob.shutdownPeriodicJob.1, .stopTest .delete)
  | .returned _, _ => none

/-- A blocked thread wakes by its timeout or spuriously. -/
def periodicWake (pjob : PeriodicJob) (t : ℕ) : PeriodicPc → Option PeriodicJob
  | .runnerPaused _ => some { pjob with jobWait := pjob.jobWait.erase t }
  | .runnerWaiting _ _ => some { pjob with jobWait := pjob.jobWait.erase t }
  | .stopWaiting _ => some { pjob with stopWait := pjob.stopWait.erase t }
  | _ => none

def periodicSystem : System PeriodicJob PeriodicPc PeriodicJobCall ℕ where
  start _ := .calling
  step := periodicStep
  wake := periodicWake

/-- The runner of a new job. -/
def periodicInit (pjob : PeriodicJob) : PeriodicConfig := ⟨pjob, [.runnerTop]⟩

/-- The configurations that any interleaving of any calls leads to. -/
def PeriodicReach (pjob : PeriodicJob) : PeriodicConfig → Prop :=
  periodicSystem.Reach (fun _ _ => True) (periodicInit pjob)

end BoomPar
