-- SUMMARY: Every timed wait of an alarm job uses a period asked for after the last wake-up call.
import BoomPar.JobStops

/-!
# Alarm updates

A wake-up call that the running job refuses relies on `alarm_set_function` being
called again before the next timed wait; one that is accepted relies on the job
running before it waits again. Either way the period of a timed wait is newer
than the call.
-/

namespace BoomPar

open Monitor

/-- The period that the event sets. -/
def AlarmJobEvent.period? : AlarmJobEvent → Option ℕ
  | .alarmSet period => some period
  | _ => none

/-- What the last call of `alarm_set_function` in the log returned, if there is one. -/
def lastAlarm (log : List AlarmJobEvent) : Option ℕ :=
  (log.filterMap AlarmJobEvent.period?).getLast?

/-- Each timed wait of the log uses what `alarm_set_function` returned last in it. -/
def WaitsFresh (log : List AlarmJobEvent) : Prop :=
  ∀ mid period time post, log = mid ++ .timedWait period time :: post →
    lastAlarm mid = some period

/-- The job does not begin a timed wait before it calls `alarm_set_function`. -/
def Stale (ajob : AlarmJob) : Prop :=
  ajob.state = .waiting → ajob.eventVector.wakeUpCalled = true

/-- Since `log₀` the timed waits were fresh, and the next one will be: the period is
    newer than `log₀`, or no timed wait is ahead without a call. -/
def FreshSince (log₀ : List AlarmJobEvent) (ajob : AlarmJob) : Prop :=
  ∃ log, ajob.log = log₀ ++ log ∧ WaitsFresh log ∧
    (lastAlarm log = some ajob.periodInMicroseconds ∨ Stale ajob)

/-! ## The last alarm -/

theorem lastAlarm_append_singleton (log : List AlarmJobEvent) (e : AlarmJobEvent) :
    lastAlarm (log ++ [e]) = e.period?.or (lastAlarm log) := by
  simp only [lastAlarm, List.filterMap_append, List.getLast?_append]
  cases e <;> simp [AlarmJobEvent.period?]

theorem WaitsFresh.append {log : List AlarmJobEvent} {e : AlarmJobEvent} (h : WaitsFresh log)
    (he : ∀ period time, e = .timedWait period time → lastAlarm log = some period) :
    WaitsFresh (log ++ [e]) := by
  intro mid period time post hlog
  induction post using List.reverseRecOn with
  | nil =>
    obtain ⟨rfl, he'⟩ := List.append_inj' hlog rfl
    exact he period time (List.cons.inj he').1
  | append_singleton post x _ =>
    rw [← List.cons_append, ← List.append_assoc] at hlog
    obtain ⟨hlog, -⟩ := List.append_inj' hlog rfl
    exact h mid period time post hlog

theorem waitsFresh_nil : WaitsFresh [] := by
  intro mid period time post hlog
  exact absurd hlog (by simp)

/-- One more entry of the log that is neither a timed wait nor a period. -/
theorem FreshSince.record {log₀ : List AlarmJobEvent} {ajob p' : AlarmJob} {e : AlarmJobEvent}
    (h : FreshSince log₀ ajob) (hlog : p'.log = ajob.log ++ [e])
    (hperiod : p'.periodInMicroseconds = ajob.periodInMicroseconds)
    (he : e.period? = none) (hwait : ∀ period time, e ≠ .timedWait period time)
    (hstale : Stale ajob → Stale p') : FreshSince log₀ p' := by
  obtain ⟨log, hlog₀, hwaits, hnext⟩ := h
  refine ⟨log ++ [e], ?_, hwaits.append fun period time hp => absurd hp (hwait period time), ?_⟩
  · rw [hlog, hlog₀, List.append_assoc]
  · rw [lastAlarm_append_singleton, he, Option.none_or, hperiod]
    exact hnext.imp_right hstale

theorem FreshSince.congr {log₀ : List AlarmJobEvent} {ajob p' : AlarmJob}
    (h : FreshSince log₀ ajob) (hlog : p'.log = ajob.log)
    (hperiod : p'.periodInMicroseconds = ajob.periodInMicroseconds)
    (hstale : Stale ajob → Stale p') : FreshSince log₀ p' := by
  obtain ⟨log, hlog₀, hwaits, hnext⟩ := h
  refine ⟨log, hlog.trans hlog₀, hwaits, ?_⟩
  rw [hperiod]
  exact hnext.imp_right hstale

/-! ## One move -/

/-- What a job that is about to consume the events needs: a fresh period, or a
    state from which no update leads to a timed wait. -/
def FreshOrGoes (log₀ : List AlarmJobEvent) (ajob : AlarmJob) : Prop :=
  ∃ log, ajob.log = log₀ ++ log ∧ WaitsFresh log ∧
    (lastAlarm log = some ajob.periodInMicroseconds ∨ (Stale ajob ∧ ajob.state ≠ .running))

theorem AlarmLoopAt.fresh {log₀ : List AlarmJobEvent} {ajob p : AlarmJob} {t total : ℕ}
    {o : AlarmOutcome} {pc : AlarmPc} (h : AlarmLoopAt ajob t o pc total p)
    (hat : AlarmRunnerAt ajob.state pc) (hfresh : FreshSince log₀ ajob) :
    FreshOrGoes log₀ p := by
  obtain ⟨log, hlog, hwaits, hnext⟩ := hfresh
  cases h with
  | top hstate => exact ⟨log, hlog, hwaits, hnext.imp_right fun h => ⟨h, hstate⟩⟩
  | set p _ hset =>
    obtain ⟨f, -, rfl⟩ := Option.map_eq_some_iff.mp hset
    refine ⟨log ++ [.alarmSet o.period], ?_, hwaits.append nofun, .inl ?_⟩
    · rw [hlog, List.append_assoc]
    · rw [lastAlarm_append_singleton]
      rfl
  | paused total _ =>
    refine ⟨log, hlog, hwaits, hnext.imp_right fun h => ⟨h, ?_⟩⟩
    rw [show ajob.state = .paused from hat]
    exact nofun
  | waiting total time elapsed _ _ =>
    refine ⟨log ++ [.elapsed elapsed], ?_, hwaits.append nofun, ?_⟩
    · rw [AlarmJob.record, hlog, List.append_assoc]
    · rw [lastAlarm_append_singleton]
      refine hnext.imp_right fun h => ⟨h, ?_⟩
      have hwaiting : ajob.state = .waiting := hat
      rintro (hrunning : ajob.state = .running)
      rw [hwaiting] at hrunning
      cases hrunning

/-- From a stale job that is not running no update leads to a timed wait. -/
theorem Stale.nextState {ajob : AlarmJob} (h : Stale ajob) (hstate : ajob.state ≠ .running)
    (total : ℕ) : ajob.nextState total ≠ .waiting := by
  unfold AlarmJob.nextState
  cases hs : ajob.state with
  | running => exact absurd hs hstate
  | paused => split_ifs <;> exact nofun
  | waiting =>
    simp only [h hs, if_true]
    split_ifs <;> exact nofun
  | shutdown => exact nofun

theorem AlarmTurn.fresh {log₀ : List AlarmJobEvent} {ajob p' : AlarmJob} {t total : ℕ}
    {pc' : AlarmPc} (h : AlarmTurn ajob t total p' pc') (hfresh : FreshOrGoes log₀ ajob) :
    FreshSince log₀ p' := by
  obtain ⟨log, hlog, hwaits, hnext⟩ := hfresh
  have hconsumed : ∀ p : AlarmJob, p = ajob.consumeEventsAndUpdateState total →
      ∃ log, p.log = log₀ ++ log ∧ WaitsFresh log ∧
        (lastAlarm log = some p.periodInMicroseconds ∨ p.state ≠ .waiting) := by
    rintro p rfl
    refine ⟨log ++ [.updated ajob.state (ajob.nextState total)], ?_,
      hwaits.append (by rintro _ _ ⟨⟩), ?_⟩
    · rw [AlarmJob.consumeEventsAndUpdateState, hlog, List.append_assoc]
    · rw [lastAlarm_append_singleton]
      exact hnext.imp_right fun h => h.1.nextState h.2 total
  cases h with
  | shutdown p hp hstate =>
    obtain ⟨log, hlog, hwaits, hnext⟩ := hconsumed p hp
    exact ⟨log, hlog, hwaits, hnext.imp_right fun h hs => absurd hs h⟩
  | paused p hp hstate =>
    obtain ⟨log, hlog, hwaits, hnext⟩ := hconsumed p hp
    have hfresh : FreshSince log₀ p := ⟨log, hlog, hwaits, hnext.imp_right fun h hs => absurd hs h⟩
    refine hfresh.record rfl rfl rfl (by rintro _ _ ⟨⟩) fun _ hs => ?_
    rw [show p.state = .waiting from hs] at hstate
    cases hstate
  | waiting p time hp hstate _ =>
    obtain ⟨log, hlog, hwaits, hnext⟩ := hconsumed p hp
    have hset := hnext.resolve_right fun h => h hstate
    refine ⟨log ++ [.timedWait p.periodInMicroseconds time], ?_, hwaits.append ?_, .inl ?_⟩
    · rw [hlog, List.append_assoc]
    · rintro period time' ⟨⟩
      exact hset
    · rw [lastAlarm_append_singleton]
      exact hset
  | run p hp hstate =>
    obtain ⟨log, hlog, hwaits, hnext⟩ := hconsumed _ hp
    exact ⟨log, hlog, hwaits, hnext.imp_right fun h hs => absurd hs h⟩

theorem AlarmJob.control_fresh {log₀ : List AlarmJobEvent} {ajob : AlarmJob}
    (h : FreshSince log₀ ajob) (e : AlarmJobControl) : FreshSince log₀ (ajob.control e).1 := by
  obtain ⟨-, hcontrol⟩ | ⟨-, hcontrol⟩ := ajob.control_cases e
  · rw [hcontrol]
    exact h
  · rw [hcontrol]
    refine h.record rfl rfl rfl nofun fun hstale hstate => ?_
    cases e with
    | wakeUp => rfl
    | _ => exact hstale hstate

theorem AlarmMove.fresh {log₀ : List AlarmJobEvent} {ajob p' : AlarmJob} {t : ℕ}
    {o : AlarmOutcome} {pc pc' : AlarmPc} (h : AlarmMove ajob t o pc p' pc')
    (hat : AlarmRunnerAt ajob.state pc) (hfresh : FreshSince log₀ ajob) : FreshSince log₀ p' := by
  cases h with
  | loop pc total p p' pc' hloop hturn => exact hturn.fresh (hloop.fresh hat hfresh)
  | invoke => exact hfresh.record rfl rfl rfl nofun id
  | ended => exact hfresh.record rfl rfl rfl nofun id
  | call k => exact hfresh
  | send e res _ => exact AlarmJob.control_fresh hfresh e
  | stopPass pc k _ _ => exact hfresh
  | stopWait pc k _ _ => exact hfresh.congr rfl rfl id
  | delete => exact AlarmJob.control_fresh hfresh .shutdown

/-! ## Runs of the system -/

/-- The runner is where the state puts it, and the timed waits since `log₀` are fresh. -/
structure StaysFresh (log₀ : List AlarmJobEvent) (ajob : AlarmJob) (pc : AlarmPc) : Prop where
  position : AlarmRunnerAt ajob.state pc
  fresh : FreshSince log₀ ajob

theorem alarm_stays_fresh (log₀ : List AlarmJobEvent) :
    System.Serves alarmSystem AlarmPc.isRunner (StaysFresh log₀) where
  start _ _ := rfl
  new hs := by
    obtain ⟨-, rfl⟩ := alarmStep_move hs
    exact fun q hq => absurd hq List.not_mem_nil
  step {s t pc o s' pc' new} hs := by
    obtain ⟨hmove, rfl⟩ := alarmStep_move hs
    obtain ⟨hrunner, hrunner', hat, -⟩ | ⟨hclient, hclient', hstate, -⟩ := hmove.advances
    · exact .inl ⟨hrunner, hrunner', fun h => ⟨hat h.position, hmove.fresh h.position h.fresh⟩⟩
    · refine .inr ⟨hclient, hclient', fun q _ h => ⟨hstate ▸ h.position, hmove.fresh ?_ h.fresh⟩⟩
      cases pc <;> trivial
  wake hs q _ h := by
    obtain ⟨_, _, _, rfl⟩ := alarmWake_frame hs
    exact ⟨h.position, h.fresh.congr rfl rfl id⟩

variable {c c' : AlarmConfig}

/-- From a configuration whose period is fresh or stale, the timed waits are fresh. -/
theorem AlarmRunnerInv.waitsFresh (hc : AlarmRunnerInv c) (hstale : Stale c.shared)
    (h : alarmSystem.Reach (fun _ _ => True) c c') :
    ∃ log, c'.shared.log = c.shared.log ++ log ∧ WaitsFresh log := by
  obtain ⟨pc, hpc, hrunner, hposition⟩ := hc.first
  have hsole : System.Sole AlarmPc.isRunner (StaysFresh c.shared.log) c :=
    ⟨hc.only, pc, hpc, hrunner, hposition, [], (List.append_nil _).symm, waitsFresh_nil,
      .inr hstale⟩
  obtain ⟨-, -, -, -, log, hlog, hwaits, -⟩ := ((alarm_stays_fresh _).reach hsole h).first
  exact ⟨log, hlog, hwaits⟩

/-- A wake-up call leaves the job stale, whether it is accepted or not. -/
theorem stale_of_wakeUp (ajob : AlarmJob) : Stale (ajob.control .wakeUp).1 := by
  intro hwaiting
  rw [ajob.control_state] at hwaiting
  obtain ⟨hrefused, -⟩ | ⟨-, hcontrol⟩ := ajob.control_cases .wakeUp
  · rw [hwaiting] at hrefused
    cases hrefused
  · rw [hcontrol]
    rfl

/-- Every timed wait uses a period that `alarm_set_function` returned, and one that
    begins after a wake-up call, whatever the call returns, a period that was asked
    for after it. -/
theorem timed_waits_use_fresh_periods {alarmSetFunction alarmJobFunction : Ptr}
    {allocated threadError : Bool} {ajob : AlarmJob}
    (hnew : AlarmJob.new alarmSetFunction alarmJobFunction allocated threadError = some ajob)
    (h : AlarmReach ajob c) :
    WaitsFresh c.shared.log ∧
    ∀ t o c₁ c₂, c.pc? t = some (.send .wakeUp) → alarmSystem.next c (.step t o) = some c₁ →
      alarmSystem.Reach (fun _ _ => True) c₁ c₂ →
      ∃ log, c₂.shared.log = c₁.shared.log ++ log ∧ WaitsFresh log := by
  obtain ⟨hpaused, -, -, hempty⟩ := AlarmJob.state_of_new hnew
  constructor
  · have hstale : Stale (alarmInit ajob).shared := by
      intro hwaiting
      rw [alarmInit, hpaused] at hwaiting
      cases hwaiting
    obtain ⟨log, hlog, hwaits⟩ := (alarmRunnerInv_init hpaused).waitsFresh hstale h
    rw [alarmInit, hempty, List.nil_append] at hlog
    exact hlog ▸ hwaits
  · intro t o c₁ c₂ hpc hnext hreach
    have hmoved := System.next_step (S := alarmSystem) (o := o) hpc rfl
    have hstep : alarmSystem.Reach (fun _ _ => True) c c₁ := .tail .refl trivial hnext
    have hrunner : AlarmRunnerInv c₁ := (alarm_runner_invariant hpaused h).reach hstep
    obtain rfl := Option.some.inj (hmoved.symm.trans hnext)
    exact hrunner.waitsFresh (stale_of_wakeUp c.shared) hreach

/-- A job that waited with a period of 9 and was woken is woken again while it runs. -/
def wokenAlarm : AlarmConfig :=
  alarmSystem.run (alarmInit newAlarm)
    [.call (.send .wakeUp) ⟨0, 0⟩, .step 1 ⟨0, 0⟩, .step 0 ⟨0, 0⟩, .step 0 ⟨0, 0⟩, .step 0 ⟨0, 0⟩,
      .step 0 ⟨9, 0⟩, .call (.send .wakeUp) ⟨0, 0⟩, .step 2 ⟨0, 0⟩, .step 0 ⟨0, 9⟩, .step 0 ⟨0, 0⟩,
      .call (.send .wakeUp) ⟨0, 0⟩] (by decide)

def refusedWakeUp : AlarmConfig := alarmSystem.run wokenAlarm [.step 3 ⟨0, 0⟩] (by decide)

/-- The function ends, and the runner asks for the next period, which is 5. -/
def waitingAgain : AlarmConfig :=
  alarmSystem.run refusedWakeUp [.step 0 ⟨0, 0⟩, .step 0 ⟨5, 0⟩] (by decide)

theorem timed_waits_use_fresh_periods_wokenAlarm :
    WaitsFresh wokenAlarm.shared.log ∧
      ∃ log, waitingAgain.shared.log = refusedWakeUp.shared.log ++ log ∧ WaitsFresh log := by
  have h := timed_waits_use_fresh_periods (Option.some_get _).symm
    (.run (alarmInit newAlarm) _ (by decide) : AlarmReach newAlarm wokenAlarm)
  exact ⟨h.1, h.2 3 ⟨0, 0⟩ refusedWakeUp waitingAgain (by decide) (by decide) (.run _ _ _)⟩

end BoomPar
