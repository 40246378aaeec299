-- SUMMARY: The periodic job as an event machine: each of its runs, read through its log, is a run of the machine.
import BoomPar.Monitor.EventMachine
import BoomPar.PeriodicThreads

/-!
# The periodic job as an event machine

Clients and runner only meet in the state, the event vector and the place where
the runner stands. What they do is a run of an event machine over the log, so
that what the log can hold is a matter of the machine alone.
-/

namespace BoomPar

open Monitor

namespace PeriodicJobState

/-- The states in which an event is accepted. -/
def accepts : PeriodicJobState → PeriodicJobControl → Bool
  | state, .shutdown => state != .shutdown
  | state, .pause => state == .running || state == .waiting || state == .singleShotOnWaiting
  | state, .resume => state == .paused || state == .singleShotOnPaused
  | state, .singleShot => state == .waiting || state == .paused

/-- The state that consumes the pending events. -/
def next (state : PeriodicJobState) (pending : PeriodicJobControl → Bool) (expired : Bool) :
    PeriodicJobState :=
  if pending .shutdown || state == .shutdown then .shutdown
  else
    match state with
    | .paused =>
      if pending .resume then .running
      else if pending .singleShot then .singleShotOnPaused
      else .paused
    | .singleShotOnPaused => if pending .resume then .waiting else .paused
    | .running => if pending .pause then .paused else .waiting
    | .waiting =>
      if pending .pause then .paused
      else if pending .singleShot then .singleShotOnWaiting
      else if expired then .running
      else .waiting
    | .singleShotOnWaiting => if pending .pause then .paused else .waiting
    | .shutdown => .shutdown

end PeriodicJobState

/-- The machine of the periodic job. -/
def periodicMachine : EventMachine PeriodicJobState PeriodicJobControl where
  accepts := PeriodicJobState.accepts
  next := PeriodicJobState.next
  runs := PeriodicJobState.runs

/-- What an entry of the log means to the machine. -/
def PeriodicJobEvent.note : PeriodicJobEvent → Note PeriodicJobState PeriodicJobControl
  | .sent e => .sent e
  | .updated before after => .updated before after
  | .blocked _ => .blocked
  | .elapsed _ => .other
  | .invoked => .invoked
  | .ended => .other

namespace EventVector

/-- The bit of an event. -/
def has (v : EventVector) : PeriodicJobControl → Bool
  | .shutdown => v.shutdownCalled
  | .pause => v.pauseCalled
  | .resume => v.resumeCalled
  | .singleShot => v.singleShotCalled

@[simp] theorem has_zero : EventVector.zero.has = fun _ => false := by
  funext e
  cases e <;> rfl

@[simp] theorem has_set (v : EventVector) (e : PeriodicJobControl) :
    (v.set e).has = Function.update v.has e true := by
  funext e'
  cases e <;> cases e' <;> rfl

end EventVector

/-- Where the runner stands. -/
def PeriodicPc.stand : PeriodicPc → Stand
  | .runnerInvoke => .due
  | .runnerDone => .turned
  | _ => .idle

/-- The phase of the machine that a job is in, with its runner at `pc`. -/
def PeriodicJob.phase (pjob : PeriodicJob) (pc : PeriodicPc) :
    Phase PeriodicJobState PeriodicJobControl :=
  ⟨pjob.state, pjob.eventVector.has, pc.stand⟩

/-- The log of a job and the phase that it is in. -/
def PeriodicJob.trail (pjob : PeriodicJob) (pc : PeriodicPc) :
    List PeriodicJobEvent × Phase PeriodicJobState PeriodicJobControl :=
  (pjob.log, pjob.phase pc)

/-- A stretch of the log from one phase of the machine to another. -/
abbrev PeriodicRun := periodicMachine.Run PeriodicJobEvent.note

abbrev PeriodicAdvances := periodicMachine.Advances PeriodicJobEvent.note

namespace PeriodicJob

theorem nextState_eq (pjob : PeriodicJob) (total : ℕ) :
    pjob.nextState total = periodicMachine.next pjob.state pjob.eventVector.has
      (pjob.periodInMicroseconds.microseconds ≤ total) := by
  cases hstate : pjob.state <;> cases hshutdown : pjob.eventVector.shutdownCalled <;>
    simp [nextState, periodicMachine, PeriodicJobState.next, EventVector.has, hstate,
      hshutdown] <;> rfl

/-- The event is refused, or it is placed in the event vector and recorded. -/
theorem control_cases (pjob : PeriodicJob) (e : PeriodicJobControl) :
    (pjob.state.accepts e = false ∧ pjob.control e = (pjob, false)) ∨
      (pjob.state.accepts e = true ∧ pjob.control e =
        ({ pjob with
            eventVector := pjob.eventVector.set e
            jobWait := pjob.jobWait.signal 0
            log := pjob.log ++ [.sent e] }, true)) := by
  have hcontrol : pjob.control e = pjob.send e (pjob.state.accepts e) := by
    cases e <;> rfl
  rw [hcontrol]
  cases pjob.state.accepts e with
  | false => exact .inl ⟨rfl, rfl⟩
  | true => exact .inr ⟨rfl, rfl⟩

/-- An event is one entry of the log, unless it is refused. -/
theorem control_advances (pjob : PeriodicJob) (e : PeriodicJobControl) {pc : PeriodicPc}
    (hpc : pc = .runnerDone → pjob.state = .shutdown) :
    PeriodicAdvances (pjob.trail pc) ((pjob.control e).1.trail pc) := by
  obtain ⟨-, hcontrol⟩ | ⟨haccepts, hcontrol⟩ := pjob.control_cases e
  · rw [hcontrol]
    exact .refl _
  · rw [hcontrol]
    have hstand : pc.stand ≠ .turned := by
      intro hturned
      have hdone : pc = .runnerDone := by
        cases pc <;> first | rfl | cases hturned
      rw [hpc hdone] at haccepts
      cases e <;> cases haccepts
    have hstep := EventMachine.Step.sent (M := periodicMachine) (p := pjob.phase pc) e haccepts
      hstand
    rw [phase, ← EventVector.has_set] at hstep
    exact .single hstep

/-- Consuming the events is an update of the machine. -/
theorem consume_advances {pjob p : PeriodicJob} {total : ℕ}
    (hp : p = pjob.consumeEventsAndUpdateState total) :
    PeriodicAdvances (pjob.trail .runnerTop)
      (p.log, ⟨p.state, p.eventVector.has, if p.state.runs then .due else .turned⟩) := by
  have hstep := EventMachine.Step.updated (M := periodicMachine) (p := pjob.phase .runnerTop)
    (pjob.periodInMicroseconds.microseconds ≤ total) rfl
  have hnext : periodicMachine.next (pjob.phase .runnerTop).state
      (pjob.phase .runnerTop).pending (pjob.periodInMicroseconds.microseconds ≤ total) =
      p.state := by
    rw [hp]
    exact (pjob.nextState_eq total).symm
  have hzero : p.eventVector.has = fun _ => false := by
    rw [hp]
    exact EventVector.has_zero
  have hlog : p.log = pjob.log ++ [.updated pjob.state p.state] := by
    rw [hp]
    rfl
  rw [hnext] at hstep
  rw [hzero, hlog]
  exact .single hstep

end PeriodicJob

/-- Reading what elapsed of a timed wait does not concern the machine. -/
theorem LoopAt.advances {pjob p : PeriodicJob} {t remaining total : ℕ} {pc : PeriodicPc}
    (h : LoopAt pjob t remaining pc total p) :
    PeriodicAdvances (pjob.trail pc) (p.trail .runnerTop) := by
  cases h with
  | top => exact .refl _
  | paused total _ => exact .refl _
  | waiting total time elapsed _ _ => exact .single .other

/-- The runner consumes the events and then blocks, ends, or is to call the function. -/
theorem LoopTurn.advances {pjob p' : PeriodicJob} {t total : ℕ} {pc' : PeriodicPc}
    (h : LoopTurn pjob t total p' pc') :
    PeriodicAdvances (pjob.trail .runnerTop) (p'.trail pc') := by
  cases h with
  | shutdown p hp hstate =>
    have hconsumed := PeriodicJob.consume_advances hp
    rw [hstate] at hconsumed
    rw [PeriodicJob.trail, PeriodicJob.phase, hstate]
    exact hconsumed
  | paused p hp hstate =>
    have hconsumed := PeriodicJob.consume_advances hp
    rw [hstate] at hconsumed
    rw [PeriodicJob.trail, PeriodicJob.phase, hstate]
    exact hconsumed.trans (.single (.blocked rfl))
  | waiting p time hp hstate _ =>
    have hconsumed := PeriodicJob.consume_advances hp
    rw [hstate] at hconsumed
    rw [PeriodicJob.trail, PeriodicJob.phase, hstate]
    exact hconsumed.trans (.single (.blocked rfl))
  | run p hp hruns =>
    have hconsumed := PeriodicJob.consume_advances hp
    rw [if_pos hruns] at hconsumed
    exact hconsumed

/-! ## Runs of the system -/

/-- The runner is where the state puts it, and the job has followed the machine
    since `x₀`. -/
structure FollowsPeriodic
    (x₀ : List PeriodicJobEvent × Phase PeriodicJobState PeriodicJobControl)
    (pjob : PeriodicJob) (pc : PeriodicPc) : Prop where
  position : RunnerAt pjob.state pc
  advances : PeriodicAdvances x₀ (pjob.trail pc)

/-- The runner advances the machine, or a client does while the runner stays. -/
theorem PeriodicMove.advances {pjob p' : PeriodicJob} {t remaining : ℕ} {pc pc' : PeriodicPc}
    (h : PeriodicMove pjob t remaining pc p' pc') :
    (pc.isRunner = true ∧ PeriodicAdvances (pjob.trail pc) (p'.trail pc')) ∨
    (pc.isRunner = false ∧ ∀ q, (q = .runnerDone → pjob.state = .shutdown) →
      PeriodicAdvances (pjob.trail q) (p'.trail q)) := by
  cases h with
  | loop pc total p p' pc' hat hturn =>
    exact .inl ⟨by cases hat <;> rfl, hat.advances.trans hturn.advances⟩
  | invoke => exact .inl ⟨rfl, .single (.invoked rfl)⟩
  | ended => exact .inl ⟨rfl, .single .other⟩
  | call k => exact .inr ⟨rfl, fun q _ => .refl _⟩
  | send e res _ => exact .inr ⟨rfl, fun q hq => pjob.control_advances e hq⟩
  | updatePeriod n res _ =>
    obtain ⟨_, _, hframe, -⟩ := pjob.updatePeriod_frame n
    rw [hframe]
    exact .inr ⟨rfl, fun q _ => .refl _⟩
  | getPeriod => exact .inr ⟨rfl, fun q _ => .refl _⟩
  | stopPass pc k hat _ => exact .inr ⟨by cases hat <;> rfl, fun q _ => .refl _⟩
  | stopWait pc k hat _ => exact .inr ⟨by cases hat <;> rfl, fun q _ => .refl _⟩
  | delete => exact .inr ⟨rfl, fun q hq => pjob.control_advances .shutdown hq⟩

theorem periodic_serves
    (x₀ : List PeriodicJobEvent × Phase PeriodicJobState PeriodicJobControl) :
    System.Serves periodicSystem PeriodicPc.isRunner (FollowsPeriodic x₀) where
  start _ _ := rfl
  new hs := by
    obtain ⟨-, rfl⟩ := periodicStep_move hs
    exact fun q hq => absurd hq List.not_mem_nil
  step {s t pc o s' pc' new} hs := by
    obtain ⟨hmove, rfl⟩ := periodicStep_move hs
    obtain ⟨hrunner, hadvances⟩ | ⟨hclient, hadvances⟩ := hmove.advances
    · obtain ⟨-, hrunner', hat⟩ | ⟨hclient, -, -⟩ := hmove.runner
      · exact .inl ⟨hrunner, hrunner', fun h => ⟨hat h.position, h.advances.trans hadvances⟩⟩
      · rw [hrunner] at hclient
        cases hclient
    · obtain ⟨hrunner, -, -⟩ | ⟨-, hclient', hstate⟩ := hmove.runner
      · rw [hclient] at hrunner
        cases hrunner
      · refine .inr ⟨hclient, hclient', fun q _ h => ⟨hstate ▸ h.position, ?_⟩⟩
        refine h.advances.trans (hadvances q ?_)
        rintro rfl
        exact h.position
  wake hs q _ h := by
    obtain ⟨_, _, rfl⟩ := periodicWake_frame hs
    exact ⟨h.position, h.advances⟩

/-- What happens between two configurations is a run of the machine. -/
theorem periodic_run {c c' : PeriodicConfig} (hc : RunnerInv c)
    {ok : PeriodicConfig → Act PeriodicJobCall ℕ → Prop} (h : periodicSystem.Reach ok c c') :
    ∃ pc pc' log, c.pc? 0 = some pc ∧ c'.pc? 0 = some pc' ∧
      c'.shared.log = c.shared.log ++ log ∧
      PeriodicRun (c.shared.phase pc) log (c'.shared.phase pc') := by
  obtain ⟨pc, hpc, hrunner⟩ := hc.runner
  have hsole : System.Sole PeriodicPc.isRunner (FollowsPeriodic (c.shared.trail pc)) c :=
    ⟨hc.only, pc, hpc, hrunner, hc.position 0 pc hpc, .refl _⟩
  obtain ⟨pc', hpc', -, hfollows⟩ := ((periodic_serves _).reach hsole h).first
  obtain ⟨log, hlog, hrun⟩ := hfollows.advances
  exact ⟨pc, pc', log, hpc, hpc', hlog, hrun⟩

end BoomPar
