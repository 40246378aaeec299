-- SUMMARY: The alarm job: its state machine, the sections of its runner and of its clients, and the system of its threads.
import BoomPar.PeriodicJob

/-!
# `alarm_job`

The sibling of the periodic job whose runner asks a function of the client for
the time to the next alarm. That function is called under `job_lock`, so it is
part of the section in which the runner then consumes the events.
-/

namespace BoomPar

open Monitor

inductive AlarmJobState where
  | paused
  | running
  | waiting
  | shutdown
  deriving DecidableEq

/-- The events that can be placed in the event vector, in the priority of their processing. -/
inductive AlarmJobControl where
  | shutdown
  | pause
  | wakeUp
  deriving DecidableEq

/-- One bit for each event. -/
structure AlarmEventVector where
  shutdownCalled : Bool
  pauseCalled : Bool
  wakeUpCalled : Bool
  deriving DecidableEq

/-- No event is pending. -/
def AlarmEventVector.zero : AlarmEventVector := ⟨false, false, false⟩

/-- Set the bit of an event. -/
def AlarmEventVector.set (v : AlarmEventVector) : AlarmJobControl → AlarmEventVector
  | .shutdown => { v with shutdownCalled := true }
  | .pause => { v with pauseCalled := true }
  | .wakeUp => { v with wakeUpCalled := true }

/-- What clients and the runner do, in order. -/
inductive AlarmJobEvent where
  /-- The event was placed in the event vector. -/
  | sent (e : AlarmJobControl)
  /-- `alarm_set_function` was called and returned a period. -/
  | alarmSet (period : ℕ)
  /-- The runner consumed the event vector. -/
  | updated (before after : AlarmJobState)
  /-- The runner begins the wait of a paused job. -/
  | blocked
  /-- The runner begins to wait for what is left of its period. -/
  | timedWait (period time : ℕ)
  /-- A timed wait reported the time that elapsed. -/
  | elapsed (time : ℕ)
  /-- `alarm_job_function` was called. -/
  | invoked
  /-- `alarm_job_function` returned. -/
  | ended
  deriving DecidableEq

structure AlarmJob where
  /-- The runner waits here in the states PAUSED and WAITING. -/
  jobWait : CondVar
  state : AlarmJobState
  periodInMicroseconds : ℕ
  alarmSetFunction : Ptr
  eventVector : AlarmEventVector
  stopWait : CondVar
  log : List AlarmJobEvent
  deriving DecidableEq

/-- What the environment decides in a section of the runner. -/
structure AlarmOutcome where
  /-- What `alarm_set_function` returns, if it is called. -/
  period : ℕ
  /-- What a timed wait leaves of its time. -/
  remaining : ℕ
  deriving DecidableEq

namespace AlarmJob

/-- Append an event to the log. -/
def record (ajob : AlarmJob) (e : AlarmJobEvent) : AlarmJob := { ajob with log := ajob.log ++ [e] }

/-- `new_alarm_job`; NULL for a NULL `alarm_job_function`, or when an allocation or
    the creation of the runner fails. -/
def new (alarmSetFunction alarmJobFunction : Ptr) (allocated threadError : Bool) :
    Option AlarmJob :=
  if alarmJobFunction = none then none
  else if allocated = false ∨ threadError = true then none
  else some
    { jobWait := ∅
      state := .paused
      periodInMicroseconds := blocking
      alarmSetFunction := alarmSetFunction
      eventVector := .zero
      stopWait := ∅
      log := [] }

/-! ## The state machine -/

/-- The state that `consume_events_and_update_state` sets. -/
def nextState (ajob : AlarmJob) (totalTimeWaitedFor : ℕ) : AlarmJobState :=
  match ajob.state with
  | .paused =>
    if ajob.eventVector.shutdownCalled then .shutdown
    else if ajob.eventVector.wakeUpCalled then .running
    else .paused
  | .running =>
    if ajob.eventVector.shutdownCalled then .shutdown
    else if ajob.eventVector.pauseCalled then .paused
    else .waiting
  | .waiting =>
    if ajob.eventVector.shutdownCalled then .shutdown
    else if ajob.eventVector.pauseCalled then .paused
    else if ajob.eventVector.wakeUpCalled then .running
    else if ajob.periodInMicroseconds ≤ totalTimeWaitedFor then .running
    else .waiting
  | .shutdown => .shutdown

def consumeEventsAndUpdateState (ajob : AlarmJob) (totalTimeWaitedFor : ℕ) : AlarmJob :=
  { ajob with
    state := ajob.nextState totalTimeWaitedFor
    eventVector := .zero
    log := ajob.log ++ [.updated ajob.state (ajob.nextState totalTimeWaitedFor)] }

/-! ## Sections of the clients -/

/-- Place an event in the event vector and signal the runner, if it is accepted. -/
def send (ajob : AlarmJob) (e : AlarmJobControl) (res : Bool) : AlarmJob × Bool :=
  if res then
    ({ ajob with
        eventVector := ajob.eventVector.set e
        jobWait := ajob.jobWait.signal 0
        log := ajob.log ++ [.sent e] }, true)
  else (ajob, false)

def pauseAlarmJob (ajob : AlarmJob) : AlarmJob × Bool :=
  ajob.send .pause (ajob.state == .running || ajob.state == .waiting)

def wakeUpAlarmJob (ajob : AlarmJob) : AlarmJob × Bool :=
  ajob.send .wakeUp (ajob.state == .paused || ajob.state == .waiting)

def shutdownAlarmJob (ajob : AlarmJob) : AlarmJob × Bool :=
  ajob.send .shutdown (ajob.state != .shutdown)

/-- The section that sends an event. -/
def control (ajob : AlarmJob) : AlarmJobControl → AlarmJob × Bool
  | .shutdown => ajob.shutdownAlarmJob
  | .pause => ajob.pauseAlarmJob
  | .wakeUp => ajob.wakeUpAlarmJob

end AlarmJob

/-! ## Threads -/

/-- The state that a waiter waits for is reached. -/
def StopWaiter.alarmStopped : StopWaiter → AlarmJobState → Bool
  | .pauseOrShutdown, state => state == .shutdown || state == .paused
  | .shutdown, state => state == .shutdown
  | .delete, state => state == .shutdown

inductive AlarmJobResult where
  | sent (e : AlarmJobControl) (res : Bool)
  | stopped (k : StopWaiter)
  deriving DecidableEq

inductive AlarmJobCall where
  | send (e : AlarmJobControl)
  | waitForPauseOrShutdown
  | waitForShutdown
  | delete
  deriving DecidableEq

/-- The control state of a thread, named by the section it enters next. -/
inductive AlarmPc where
  | runnerTop
  | runnerPaused (totalTimeWaitedFor : ℕ)
  | runnerWaiting (totalTimeWaitedFor timeToWaitFor : ℕ)
  | runnerInvoke
  | runnerInvoking
  | runnerDone
  /-- The call has begun, and has not come to `job_lock` yet. -/
  | calling (k : AlarmJobCall)
  | send (e : AlarmJobControl)
  | stopTest (k : StopWaiter)
  | stopWaiting (k : StopWaiter)
  | delete
  | returned (r : AlarmJobResult)
  deriving DecidableEq

abbrev AlarmConfig := Config AlarmJob AlarmPc

/-- The section that a call enters first. -/
def AlarmJobCall.start : AlarmJobCall → AlarmPc
  | .send e => .send e
  | .waitForPauseOrShutdown => .stopTest .pauseOrShutdown
  | .waitForShutdown => .stopTest .shutdown
  | .delete => .delete

namespace AlarmJob

/-- The inner loop of `alarm_job_runner`, up to its next wait or to the release of
    `job_lock`. -/
def runnerLoop (ajob : AlarmJob) (t totalTimeWaitedFor : ℕ) : AlarmJob × AlarmPc :=
  let ajob := ajob.consumeEventsAndUpdateState totalTimeWaitedFor
  match ajob.state with
  | .shutdown => ({ ajob with stopWait := ajob.stopWait.broadcast }, .runnerDone)
  | .paused =>
    ({ ajob with
        stopWait := ajob.stopWait.broadcast
        jobWait := ajob.jobWait.wait t
        log := ajob.log ++ [.blocked] },
      .runnerPaused totalTimeWaitedFor)
  | .waiting =>
    let timeToWaitFor := uint64Sub ajob.periodInMicroseconds totalTimeWaitedFor
    ({ ajob with
        jobWait := ajob.jobWait.wait t
        log := ajob.log ++ [.timedWait ajob.periodInMicroseconds timeToWaitFor] },
      .runnerWaiting totalTimeWaitedFor timeToWaitFor)
  | .running => (ajob, .runnerInvoke)

/-- Call `alarm_set_function`, which returns `period`; NULL cannot be called. -/
def setAlarm (ajob : AlarmJob) (period : ℕ) : Option AlarmJob :=
  ajob.alarmSetFunction.map fun _ =>
    { ajob with periodInMicroseconds := period, log := ajob.log ++ [.alarmSet period] }

/-- The wait loops on `stop_wait`. -/
def awaitStop (ajob : AlarmJob) (t : ℕ) (k : StopWaiter) : AlarmJob × AlarmPc :=
  if k.alarmStopped ajob.state then (ajob, .returned (.stopped k))
  else ({ ajob with stopWait := ajob.stopWait.wait t }, .stopWaiting k)

end AlarmJob

/-- One section of thread `t`. -/
def alarmStep (ajob : AlarmJob) (t : ℕ) :
    AlarmPc → AlarmOutcome → Option (AlarmJob × AlarmPc × List AlarmPc)
  | .runnerTop, o =>
    if ajob.state = .running then
      (ajob.setAlarm o.period).bind fun ajob => quietly (ajob.runnerLoop t 0)
    else quietly (ajob.runnerLoop t 0)
  | .runnerPaused total, _ =>
    if t ∈ ajob.jobWait then none else quietly (ajob.runnerLoop t total)
  | .runnerWaiting total timeToWaitFor, o =>
    if t ∈ ajob.jobWait then none
    else
      let waitTimeElapsed := uint64Sub timeToWaitFor (leftOf timeToWaitFor o.remaining)
      quietly ((ajob.record (.elapsed waitTimeElapsed)).runnerLoop t
        (uint64Add total waitTimeElapsed))
  | .runnerInvoke, _ => quietly (ajob.record .invoked, .runnerInvoking)
  | .runnerInvoking, _ => quietly (ajob.record .ended, .runnerTop)
  | .runnerDone, _ => none
  | .calling k, _ => quietly (ajob, k.start)
  | .send e, _ => quietly ((ajob.control e).1, .returned (.sent e (ajob.control e).2))
  | .stopTest k, _ => quietly (ajob.awaitStop t k)
  | .stopWaiting k, _ => if t ∈ ajob.stopWait then none else quietly (ajob.awaitStop t k)
  | .delete, _ => quietly (ajob.shutdownAlarmJob.1, .stopTest .delete)
  | .returned _, _ => none

/-- A blocked thread wakes by its timeout or spuriously. -/
def alarmWake (ajob : AlarmJob) (t : ℕ) : AlarmPc → Option AlarmJob
  | .runnerPaused _ => some { ajob with jobWait := ajob.jobWait.erase t }
  | .runnerWaiting _ _ => some { ajob with jobWait := ajob.jobWait.erase t }
  | .stopWaiting _ => some { ajob with stopWait := ajob.stopWait.erase t }
  | _ => none

def alarmSystem : System AlarmJob AlarmPc AlarmJobCall AlarmOutcome where
  start _ := .calling
  step := alarmStep
  wake := alarmWake

/-- The runner of a new job. -/
def alarmInit (ajob : AlarmJob) : AlarmConfig := ⟨ajob, [.runnerTop]⟩

/-- The configurations that any interleaving of any calls leads to. -/
def AlarmReach (ajob : AlarmJob) : AlarmConfig → Prop :=
  alarmSystem.Reach (fun _ _ => True) (alarmInit ajob)

end BoomPar
