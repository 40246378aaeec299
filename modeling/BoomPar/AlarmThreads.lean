-- SUMMARY: What each step of the alarm job's threads can do, and the alarm job as an event machine.
import BoomPar.AlarmJob
import BoomPar.Monitor.EventMachine
import BoomPar.Monitor.Rules

/-!
# Threads of the alarm job

The sections of the runner and of the clients, said once as a relation, and the
event machine that the job is: each of its runs, read through its log, is a run
of the machine.
-/

namespace BoomPar

open Monitor

/-- The runner is about to consume the event vector, after `total` microseconds. -/
inductive AlarmLoopAt (ajob : AlarmJob) (t : ℕ) (o : AlarmOutcome) :
    AlarmPc → ℕ → AlarmJob → Prop
  | top : ajob.state ≠ .running → AlarmLoopAt ajob t o .runnerTop 0 ajob
  | set (p : AlarmJob) : ajob.state = .running → ajob.setAlarm o.period = some p →
      AlarmLoopAt ajob t o .runnerTop 0 p
  | paused (total : ℕ) : t ∉ ajob.jobWait →
      AlarmLoopAt ajob t o (.runnerPaused total) total ajob
  | waiting (total timeToWaitFor elapsed : ℕ) : t ∉ ajob.jobWait →
      elapsed = uint64Sub timeToWaitFor (leftOf timeToWaitFor o.remaining) →
      AlarmLoopAt ajob t o (.runnerWaiting total timeToWaitFor) (uint64Add total elapsed)
        (ajob.record (.elapsed elapsed))

/-- A turn of the runner's inner loop, by the state that it comes to. -/
inductive AlarmTurn (ajob : AlarmJob) (t total : ℕ) : AlarmJob → AlarmPc → Prop
  | shutdown (p : AlarmJob) : p = ajob.consumeEventsAndUpdateState total →
      p.state = .shutdown → AlarmTurn ajob t total { p with stopWait := ∅ } .runnerDone
  | paused (p : AlarmJob) : p = ajob.consumeEventsAndUpdateState total → p.state = .paused →
      AlarmTurn ajob t total
        { p with stopWait := ∅, jobWait := p.jobWait.wait t, log := p.log ++ [.blocked] }
        (.runnerPaused total)
  | waiting (p : AlarmJob) (time : ℕ) : p = ajob.consumeEventsAndUpdateState total →
      p.state = .waiting → time = uint64Sub p.periodInMicroseconds total →
      AlarmTurn ajob t total
        { p with
          jobWait := p.jobWait.wait t
          log := p.log ++ [.timedWait p.periodInMicroseconds time] }
        (.runnerWaiting total time)
  | run (p : AlarmJob) : p = ajob.consumeEventsAndUpdateState total → p.state = .running →
      AlarmTurn ajob t total p .runnerInvoke

/-- A thread is about to test the wait loop on `stop_wait`. -/
inductive AlarmStopAt (ajob : AlarmJob) (t : ℕ) (k : StopWaiter) : AlarmPc → Prop
  | call : AlarmStopAt ajob t k (.stopTest k)
  | resume : t ∉ ajob.stopWait → AlarmStopAt ajob t k (.stopWaiting k)

/-- One case for each branch of each section, guards included. -/
inductive AlarmMove (ajob : AlarmJob) (t : ℕ) (o : AlarmOutcome) :
    AlarmPc → AlarmJob → AlarmPc → Prop
  | loop (pc : AlarmPc) (total : ℕ) (p p' : AlarmJob) (pc' : AlarmPc) :
      AlarmLoopAt ajob t o pc total p → AlarmTurn p t total p' pc' → AlarmMove ajob t o pc p' pc'
  | invoke : AlarmMove ajob t o .runnerInvoke (ajob.record .invoked) .runnerInvoking
  | ended : AlarmMove ajob t o .runnerInvoking (ajob.record .ended) .runnerTop
  | call (k : AlarmJobCall) : AlarmMove ajob t o (.calling k) ajob k.start
  | send (e : AlarmJobControl) (res : Bool) : (ajob.control e).2 = res →
      AlarmMove ajob t o (.send e) (ajob.control e).1 (.returned (.sent e res))
  | stopPass (pc : AlarmPc) (k : StopWaiter) : AlarmStopAt ajob t k pc →
      k.alarmStopped ajob.state = true → AlarmMove ajob t o pc ajob (.returned (.stopped k))
  | stopWait (pc : AlarmPc) (k : StopWaiter) : AlarmStopAt ajob t k pc →
      k.alarmStopped ajob.state = false →
      AlarmMove ajob t o pc { ajob with stopWait := ajob.stopWait.wait t } (.stopWaiting k)
  | delete : AlarmMove ajob t o .delete (ajob.control .shutdown).1 (.stopTest .delete)

theorem alarm_runnerLoop_turn (ajob : AlarmJob) (t total : ℕ) :
    AlarmTurn ajob t total (ajob.runnerLoop t total).1 (ajob.runnerLoop t total).2 := by
  generalize hp : ajob.consumeEventsAndUpdateState total = p
  simp only [AlarmJob.runnerLoop, hp]
  split
  · rename_i hstate
    exact .shutdown p hp.symm hstate
  · rename_i hstate
    exact .paused p hp.symm hstate
  · rename_i hstate
    exact .waiting p _ hp.symm hstate rfl
  · rename_i hstate
    exact .run p hp.symm hstate

theorem alarm_awaitStop_move {ajob p' : AlarmJob} {t : ℕ} {o : AlarmOutcome} {pc pc' : AlarmPc}
    {k : StopWaiter} {new : List AlarmPc} (hat : AlarmStopAt ajob t k pc)
    (h : quietly (ajob.awaitStop t k) = some (p', pc', new)) :
    AlarmMove ajob t o pc p' pc' ∧ new = [] := by
  simp only [quietly, AlarmJob.awaitStop] at h
  split at h
  · rename_i hstopped
    cases h
    exact ⟨.stopPass pc k hat hstopped, rfl⟩
  · rename_i hgoes
    cases h
    exact ⟨.stopWait pc k hat (Bool.eq_false_iff.mpr hgoes), rfl⟩

theorem alarmStep_move {ajob p' : AlarmJob} {t : ℕ} {o : AlarmOutcome} {pc pc' : AlarmPc}
    {new : List AlarmPc} (h : alarmStep ajob t pc o = some (p', pc', new)) :
    AlarmMove ajob t o pc p' pc' ∧ new = [] := by
  cases pc with
  | runnerTop =>
    simp only [alarmStep] at h
    split at h
    · rename_i hstate
      obtain ⟨p, hset, h⟩ := Option.bind_eq_some_iff.mp h
      cases h
      exact ⟨.loop _ _ _ _ _ (.set p hstate hset) (alarm_runnerLoop_turn _ _ _), rfl⟩
    · rename_i hstate
      cases h
      exact ⟨.loop _ _ _ _ _ (.top hstate) (alarm_runnerLoop_turn _ _ _), rfl⟩
  | runnerPaused total =>
    simp only [alarmStep] at h
    split at h
    · cases h
    · rename_i hwoken
      cases h
      exact ⟨.loop _ _ _ _ _ (.paused total hwoken) (alarm_runnerLoop_turn _ _ _), rfl⟩
  | runnerWaiting total time =>
    simp only [alarmStep] at h
    split at h
    · cases h
    · rename_i hwoken
      cases h
      exact ⟨.loop _ _ _ _ _ (.waiting total time _ hwoken rfl) (alarm_runnerLoop_turn _ _ _), rfl⟩
  | runnerInvoke => cases h; exact ⟨.invoke, rfl⟩
  | runnerInvoking => cases h; exact ⟨.ended, rfl⟩
  | runnerDone => cases h
  | calling k => cases h; exact ⟨.call k, rfl⟩
  | send e => cases h; exact ⟨.send e _ rfl, rfl⟩
  | stopTest k => exact alarm_awaitStop_move .call h
  | stopWaiting k =>
    simp only [alarmStep] at h
    split at h
    · cases h
    · rename_i hwoken
      exact alarm_awaitStop_move (.resume hwoken) h
  | delete => cases h; exact ⟨.delete, rfl⟩
  | returned r => cases h

/-- A wake-up unblocks a thread and changes nothing else. -/
theorem alarmWake_frame {ajob p' : AlarmJob} {t : ℕ} {pc : AlarmPc}
    (h : alarmWake ajob t pc = some p') :
    ∃ cv, ∃ cv' ⊆ ajob.stopWait, p' = { ajob with jobWait := cv, stopWait := cv' } := by
  cases pc with
  | runnerPaused total => cases h; exact ⟨_, _, Finset.Subset.rfl, rfl⟩
  | runnerWaiting total time => cases h; exact ⟨_, _, Finset.Subset.rfl, rfl⟩
  | stopWaiting k => cases h; exact ⟨_, _, Finset.erase_subset _ _, rfl⟩
  | _ => cases h

/-! ## The machine -/

namespace AlarmJobState

/-- The states in which an event is accepted. -/
def accepts : AlarmJobState → AlarmJobControl → Bool
  | state, .shutdown => state != .shutdown
  | state, .pause => state == .running || state == .waiting
  | state, .wakeUp => state == .paused || state == .waiting

/-- The state that consumes the pending events. -/
def next (state : AlarmJobState) (pending : AlarmJobControl → Bool) (expired : Bool) :
    AlarmJobState :=
  if pending .shutdown || state == .shutdown then .shutdown
  else
    match state with
    | .paused => if pending .wakeUp then .running else .paused
    | .running => if pending .pause then .paused else .waiting
    | .waiting =>
      if pending .pause then .paused
      else if pending .wakeUp || expired then .running
      else .waiting
    | .shutdown => .shutdown

end AlarmJobState

/-- The machine of the alarm job. -/
def alarmMachine : EventMachine AlarmJobState AlarmJobControl where
  accepts := AlarmJobState.accepts
  next := AlarmJobState.next
  runs state := state == .running

/-- What an entry of the log means to the machine. -/
def AlarmJobEvent.note : AlarmJobEvent → Note AlarmJobState AlarmJobControl
  | .sent e => .sent e
  | .alarmSet _ => .other
  | .updated before after => .updated before after
  | .blocked => .blocked
  | .timedWait _ _ => .blocked
  | .elapsed _ => .other
  | .invoked => .invoked
  | .ended => .other

namespace AlarmEventVector

/-- The bit of an event. -/
def has (v : AlarmEventVector) : AlarmJobControl → Bool
  | .shutdown => v.shutdownCalled
  | .pause => v.pauseCalled
  | .wakeUp => v.wakeUpCalled

@[simp] theorem has_zero : AlarmEventVector.zero.has = fun _ => false := by
  funext e
  cases e <;> rfl

@[simp] theorem has_set (v : AlarmEventVector) (e : AlarmJobControl) :
    (v.set e).has = Function.update v.has e true := by
  funext e'
  cases e <;> cases e' <;> rfl

end AlarmEventVector

/-- Where the runner stands. -/
def AlarmPc.stand : AlarmPc → Stand
  | .runnerInvoke => .due
  | .runnerDone => .turned
  | _ => .idle

/-- The phase of the machine that a job is in, with its runner at `pc`. -/
def AlarmJob.phase (ajob : AlarmJob) (pc : AlarmPc) : Phase AlarmJobState AlarmJobControl :=
  ⟨ajob.state, ajob.eventVector.has, pc.stand⟩

/-- The log of a job and the phase that it is in. -/
def AlarmJob.trail (ajob : AlarmJob) (pc : AlarmPc) :
    List AlarmJobEvent × Phase AlarmJobState AlarmJobControl :=
  (ajob.log, ajob.phase pc)

/-- A stretch of the log from one phase of the machine to another. -/
abbrev AlarmRun := alarmMachine.Run AlarmJobEvent.note

abbrev AlarmAdvances := alarmMachine.Advances AlarmJobEvent.note

namespace AlarmJob

theorem nextState_eq (ajob : AlarmJob) (total : ℕ) :
    ajob.nextState total = alarmMachine.next ajob.state ajob.eventVector.has
      (ajob.periodInMicroseconds ≤ total) := by
  cases hstate : ajob.state <;> cases hshutdown : ajob.eventVector.shutdownCalled <;>
    cases hwake : ajob.eventVector.wakeUpCalled <;>
    simp [nextState, alarmMachine, AlarmJobState.next, AlarmEventVector.has, hstate, hshutdown,
      hwake] <;> rfl

/-- The event is refused, or it is placed in the event vector and recorded. -/
theorem control_cases (ajob : AlarmJob) (e : AlarmJobControl) :
    (ajob.state.accepts e = false ∧ ajob.control e = (ajob, false)) ∨
      (ajob.state.accepts e = true ∧ ajob.control e =
        ({ ajob with
            eventVector := ajob.eventVector.set e
            jobWait := ajob.jobWait.signal 0
            log := ajob.log ++ [.sent e] }, true)) := by
  have hcontrol : ajob.control e = ajob.send e (ajob.state.accepts e) := by
    cases e <;> rfl
  rw [hcontrol]
  cases ajob.state.accepts e with
  | false => exact .inl ⟨rfl, rfl⟩
  | true => exact .inr ⟨rfl, rfl⟩

theorem control_state (ajob : AlarmJob) (e : AlarmJobControl) :
    (ajob.control e).1.state = ajob.state := by
  obtain ⟨-, hcontrol⟩ | ⟨-, hcontrol⟩ := ajob.control_cases e <;> rw [hcontrol]

/-- An event is one entry of the log, unless it is refused. -/
theorem control_advances (ajob : AlarmJob) (e : AlarmJobControl) {pc : AlarmPc}
    (hpc : pc = .runnerDone → ajob.state = .shutdown) :
    AlarmAdvances (ajob.trail pc) ((ajob.control e).1.trail pc) := by
  obtain ⟨-, hcontrol⟩ | ⟨haccepts, hcontrol⟩ := ajob.control_cases e
  · rw [hcontrol]
    exact .refl _
  · rw [hcontrol]
    have hstand : pc.stand ≠ .turned := by
      intro hturned
      have hdone : pc = .runnerDone := by
        cases pc <;> first | rfl | cases hturned
      rw [hpc hdone] at haccepts
      cases e <;> cases haccepts
    have hstep := EventMachine.Step.sent (M := alarmMachine) (p := ajob.phase pc) e haccepts hstand
    rw [phase, ← AlarmEventVector.has_set] at hstep
    exact .single hstep

/-- Consuming the events is an update of the machine. -/
theorem consume_advances {ajob p : AlarmJob} {total : ℕ}
    (hp : p = ajob.consumeEventsAndUpdateState total) :
    AlarmAdvances (ajob.trail .runnerTop)
      (p.log, ⟨p.state, p.eventVector.has, if p.state = .running then .due else .turned⟩) := by
  have hstep := EventMachine.Step.updated (M := alarmMachine) (p := ajob.phase .runnerTop)
    (ajob.periodInMicroseconds ≤ total) rfl
  have hnext : alarmMachine.next (ajob.phase .runnerTop).state (ajob.phase .runnerTop).pending
      (ajob.periodInMicroseconds ≤ total) = p.state := by
    rw [hp]
    exact (ajob.nextState_eq total).symm
  have hzero : p.eventVector.has = fun _ => false := by
    rw [hp]
    exact AlarmEventVector.has_zero
  have hlog : p.log = ajob.log ++ [.updated ajob.state p.state] := by
    rw [hp]
    rfl
  have hruns : alarmMachine.runs p.state = decide (p.state = .running) := by
    cases p.state <;> rfl
  rw [hnext, hruns] at hstep
  rw [hzero, hlog]
  simp only [decide_eq_true_eq] at hstep
  exact .single hstep

end AlarmJob

/-- What comes before the events are consumed does not concern the machine. -/
theorem AlarmLoopAt.advances {ajob p : AlarmJob} {t total : ℕ} {o : AlarmOutcome} {pc : AlarmPc}
    (h : AlarmLoopAt ajob t o pc total p) :
    AlarmAdvances (ajob.trail pc) (p.trail .runnerTop) := by
  cases h with
  | top _ => exact .refl _
  | set p _ hset =>
    obtain ⟨f, -, rfl⟩ := Option.map_eq_some_iff.mp hset
    exact .single .other
  | paused total _ => exact .refl _
  | waiting total time elapsed _ _ => exact .single .other

/-- The runner consumes the events and then blocks, ends, or is to call the function. -/
theorem AlarmTurn.advances {ajob p' : AlarmJob} {t total : ℕ} {pc' : AlarmPc}
    (h : AlarmTurn ajob t total p' pc') :
    AlarmAdvances (ajob.trail .runnerTop) (p'.trail pc') := by
  cases h with
  | shutdown p hp hstate =>
    have hconsumed := AlarmJob.consume_advances hp
    rw [hstate] at hconsumed
    rw [AlarmJob.trail, AlarmJob.phase, hstate]
    exact hconsumed
  | paused p hp hstate =>
    have hconsumed := AlarmJob.consume_advances hp
    rw [hstate] at hconsumed
    rw [AlarmJob.trail, AlarmJob.phase, hstate]
    exact hconsumed.trans (.single (.blocked rfl))
  | waiting p time hp hstate _ =>
    have hconsumed := AlarmJob.consume_advances hp
    rw [hstate] at hconsumed
    rw [AlarmJob.trail, AlarmJob.phase, hstate]
    exact hconsumed.trans (.single (.blocked rfl))
  | run p hp hruns =>
    have hconsumed := AlarmJob.consume_advances hp
    rw [if_pos hruns] at hconsumed
    exact hconsumed

/-! ## Runs of the system -/

/-- A control state of the runner. -/
def AlarmPc.isRunner : AlarmPc → Bool
  | .runnerTop => true
  | .runnerPaused _ => true
  | .runnerWaiting _ _ => true
  | .runnerInvoke => true
  | .runnerInvoking => true
  | .runnerDone => true
  | _ => false

/-- The control states that the runner can be at in a state. -/
def AlarmRunnerAt (state : AlarmJobState) : AlarmPc → Prop
  | .runnerTop => state = .paused ∨ state = .running
  | .runnerPaused _ => state = .paused
  | .runnerWaiting _ _ => state = .waiting
  | .runnerInvoke => state = .running
  | .runnerInvoking => state = .running
  | .runnerDone => state = .shutdown
  | _ => True

/-- The runner advances the machine, or a client does while the runner stays. -/
theorem AlarmMove.advances {ajob p' : AlarmJob} {t : ℕ} {o : AlarmOutcome} {pc pc' : AlarmPc}
    (h : AlarmMove ajob t o pc p' pc') :
    (pc.isRunner = true ∧ pc'.isRunner = true ∧
      (AlarmRunnerAt ajob.state pc → AlarmRunnerAt p'.state pc') ∧
      AlarmAdvances (ajob.trail pc) (p'.trail pc')) ∨
    (pc.isRunner = false ∧ pc'.isRunner = false ∧ p'.state = ajob.state ∧
      ∀ q, (q = .runnerDone → ajob.state = .shutdown) →
        AlarmAdvances (ajob.trail q) (p'.trail q)) := by
  cases h with
  | loop pc total p p' pc' hat hturn =>
    refine .inl ⟨by cases hat <;> rfl, ?_, ?_, hat.advances.trans hturn.advances⟩
    · cases hturn <;> rfl
    · cases hturn with
      | shutdown p _ hstate => exact fun _ => hstate
      | paused p _ hstate => exact fun _ => hstate
      | waiting p time _ hstate _ => exact fun _ => hstate
      | run p _ hstate => exact fun _ => hstate
  | invoke => exact .inl ⟨rfl, rfl, id, .single (.invoked rfl)⟩
  | ended => exact .inl ⟨rfl, rfl, .inr, .single .other⟩
  | call k => exact .inr ⟨rfl, by cases k <;> rfl, rfl, fun q _ => .refl _⟩
  | send e res _ =>
    exact .inr ⟨rfl, rfl, ajob.control_state e, fun q hq => ajob.control_advances e hq⟩
  | stopPass pc k hat _ => exact .inr ⟨by cases hat <;> rfl, rfl, rfl, fun q _ => .refl _⟩
  | stopWait pc k hat _ => exact .inr ⟨by cases hat <;> rfl, rfl, rfl, fun q _ => .refl _⟩
  | delete =>
    exact .inr ⟨rfl, rfl, ajob.control_state .shutdown,
      fun q hq => ajob.control_advances .shutdown hq⟩

/-- The runner is where the state puts it, and the job has followed the machine
    since `x₀`. -/
structure FollowsAlarm (x₀ : List AlarmJobEvent × Phase AlarmJobState AlarmJobControl)
    (ajob : AlarmJob) (pc : AlarmPc) : Prop where
  position : AlarmRunnerAt ajob.state pc
  advances : AlarmAdvances x₀ (ajob.trail pc)

theorem alarm_serves (x₀ : List AlarmJobEvent × Phase AlarmJobState AlarmJobControl) :
    System.Serves alarmSystem AlarmPc.isRunner (FollowsAlarm x₀) where
  start _ _ := rfl
  new hs := by
    obtain ⟨-, rfl⟩ := alarmStep_move hs
    exact fun q hq => absurd hq List.not_mem_nil
  step hs := by
    obtain ⟨hmove, rfl⟩ := alarmStep_move hs
    obtain ⟨hrunner, hrunner', hat, hadvances⟩ | ⟨hclient, hclient', hstate, hadvances⟩ :=
      hmove.advances
    · exact .inl ⟨hrunner, hrunner', fun h => ⟨hat h.position, h.advances.trans hadvances⟩⟩
    · refine .inr ⟨hclient, hclient', fun q _ h => ⟨hstate ▸ h.position, ?_⟩⟩
      refine h.advances.trans (hadvances q ?_)
      rintro rfl
      exact h.position
  wake hs q _ h := by
    obtain ⟨_, _, _, rfl⟩ := alarmWake_frame hs
    exact ⟨h.position, h.advances⟩

/-- Thread 0 is the runner, the only one, and is where the state puts it. -/
abbrev AlarmRunnerInv : AlarmConfig → Prop :=
  System.Sole AlarmPc.isRunner fun ajob pc => AlarmRunnerAt ajob.state pc

variable {c c' : AlarmConfig}

/-- From where the runner is, the job follows the machine. -/
theorem alarm_follows {ok : AlarmConfig → Act AlarmJobCall AlarmOutcome → Prop}
    (hc : AlarmRunnerInv c) (h : alarmSystem.Reach ok c c') :
    ∃ pc, c.pc? 0 = some pc ∧
      System.Sole AlarmPc.isRunner (FollowsAlarm (c.shared.trail pc)) c' := by
  obtain ⟨pc, hpc, hrunner, hposition⟩ := hc.first
  have hsole : System.Sole AlarmPc.isRunner (FollowsAlarm (c.shared.trail pc)) c :=
    ⟨hc.only, pc, hpc, hrunner, hposition, .refl _⟩
  exact ⟨pc, hpc, (alarm_serves _).reach hsole h⟩

theorem AlarmRunnerInv.reach {ok : AlarmConfig → Act AlarmJobCall AlarmOutcome → Prop}
    (hc : AlarmRunnerInv c) (h : alarmSystem.Reach ok c c') : AlarmRunnerInv c' := by
  obtain ⟨pc, -, hsole⟩ := alarm_follows hc h
  obtain ⟨pc', hpc', hrunner', hfollows⟩ := hsole.first
  exact ⟨hsole.only, pc', hpc', hrunner', hfollows.position⟩

/-- What happens between two configurations is a run of the machine. -/
theorem alarm_run (hc : AlarmRunnerInv c) {ok : AlarmConfig → Act AlarmJobCall AlarmOutcome → Prop}
    (h : alarmSystem.Reach ok c c') :
    ∃ pc pc' log, c.pc? 0 = some pc ∧ c'.pc? 0 = some pc' ∧
      c'.shared.log = c.shared.log ++ log ∧
      AlarmRun (c.shared.phase pc) log (c'.shared.phase pc') := by
  obtain ⟨pc, hpc, hsole⟩ := alarm_follows hc h
  obtain ⟨pc', hpc', -, hfollows⟩ := hsole.first
  obtain ⟨log, hlog, hrun⟩ := hfollows.advances
  exact ⟨pc, pc', log, hpc, hpc', hlog, hrun⟩

theorem AlarmJob.state_of_new {alarmSetFunction alarmJobFunction : Ptr}
    {allocated threadError : Bool} {ajob : AlarmJob}
    (h : AlarmJob.new alarmSetFunction alarmJobFunction allocated threadError = some ajob) :
    ajob.state = .paused ∧ ajob.eventVector = .zero ∧ ajob.stopWait = ∅ ∧ ajob.log = [] := by
  unfold AlarmJob.new at h
  split at h
  · cases h
  · split at h
    · cases h
    · cases h
      exact ⟨rfl, rfl, rfl, rfl⟩

theorem alarmRunnerInv_init {ajob : AlarmJob} (h : ajob.state = .paused) :
    AlarmRunnerInv (alarmInit ajob) where
  only t pc hpc _ := by
    cases t with
    | zero => rfl
    | succ t => cases hpc
  first := ⟨.runnerTop, rfl, rfl, .inl h⟩

theorem alarm_runner_invariant {ajob : AlarmJob} (hp : ajob.state = .paused)
    {ok : AlarmConfig → Act AlarmJobCall AlarmOutcome → Prop}
    (h : alarmSystem.Reach ok (alarmInit ajob) c) : AlarmRunnerInv c :=
  (alarmRunnerInv_init hp).reach h

end BoomPar
