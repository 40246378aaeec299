-- SUMMARY: An alarm job under a fair scheduler: accepted events take effect, a shutdown completes, and an alarm that is set goes off.
import BoomPar.AlarmUpdates
import BoomPar.Monitor.EventService

/-!
# Service of an alarm job

The runner asks for the next period after each call of the function and waits for it.
A period of BLOCKING asks for no alarm: the wait for it reports no time, and only an
event ends it. `alarm_set_function` must not be NULL, since the runner calls it. In a
fair run both functions of the job return. A run that does not end with the free is
one of clients that make no call, and have none under way, once `delete_alarm_job` has
freed the job.
-/

namespace BoomPar

open Monitor

variable {ajob : AlarmJob}

/-- What `alarm_set_function` returns is a `uint64_t`. -/
def Uint64Periods (_ : AlarmConfig) : Act AlarmJobCall AlarmOutcome → Prop
  | .step _ o => o.period ≤ blocking
  | _ => True

instance (c : AlarmConfig) : DecidablePred (Uint64Periods c)
  | .step _ o => inferInstanceAs (Decidable (o.period ≤ blocking))
  | .call _ _ => inferInstanceAs (Decidable True)
  | .wake _ => inferInstanceAs (Decidable True)

/-- A run of the threads on the alarm job `ajob` for ever. -/
abbrev AlarmJobRun (ajob : AlarmJob) :=
  System.FairRun alarmSystem Uint64Periods (alarmInit ajob)

/-- `delete_alarm_job` returned: the job is freed. -/
def AlarmFreed (c : AlarmConfig) : Prop := .returned (.stopped .delete) ∈ c.threads

instance : DecidablePred AlarmFreed := fun _ => inferInstanceAs (Decidable (_ ∈ _))

/-- A run on the alarm job that ends when the job is freed. -/
abbrev AlarmJobLife (ajob : AlarmJob) :=
  System.FairRun alarmSystem (System.BeforeFree AlarmFreed Uint64Periods) (alarmInit ajob)

/-- A thread that ended, or that is blocked. -/
def AlarmJob.rests (ajob : AlarmJob) (t : ℕ) : AlarmPc → Bool
  | .runnerPaused _ => t ∈ ajob.jobWait
  | .runnerWaiting _ _ => t ∈ ajob.jobWait
  | .stopWaiting _ => t ∈ ajob.stopWait
  | .runnerDone => true
  | .returned _ => true
  | _ => false

theorem alarmStep_eq_none {t : ℕ} {o : AlarmOutcome} {pc : AlarmPc} (h : ajob.rests t pc = true) :
    alarmStep ajob t pc o = none := by
  cases pc with
  | runnerPaused total => exact if_pos (of_decide_eq_true h)
  | runnerWaiting total time => exact if_pos (of_decide_eq_true h)
  | stopWaiting k => exact if_pos (of_decide_eq_true h)
  | runnerDone => rfl
  | returned r => rfl
  | _ => cases h

theorem alarmStep_isSome {t : ℕ} {o : AlarmOutcome} {pc : AlarmPc}
    (hset : ajob.alarmSetFunction.isSome = true) (h : ajob.rests t pc = false) :
    (alarmStep ajob t pc o).isSome = true := by
  cases pc with
  | runnerTop =>
    obtain ⟨f, hf⟩ := Option.isSome_iff_exists.mp hset
    simp only [alarmStep, AlarmJob.setAlarm, hf]
    split <;> rfl
  | runnerPaused total =>
    have hwoken : t ∉ ajob.jobWait := of_decide_eq_false h
    simp only [alarmStep, if_neg hwoken]
    rfl
  | runnerWaiting total time =>
    have hwoken : t ∉ ajob.jobWait := of_decide_eq_false h
    simp only [alarmStep, if_neg hwoken]
    rfl
  | stopWaiting k =>
    have hwoken : t ∉ ajob.stopWait := of_decide_eq_false h
    simp only [alarmStep, if_neg hwoken]
    rfl
  | runnerDone => cases h
  | returned r => cases h
  | _ => rfl

/-! ## The runner heeds the events -/

/-- While an event is pending the runner is awake, and the state is one that accepts it;
    and there is a function to ask for periods. -/
structure AlarmJob.Heeds (ajob : AlarmJob) : Prop where
  heeds : ∀ e, ajob.eventVector.has e = true → 0 ∉ ajob.jobWait ∧ ajob.state.accepts e = true
  set : ajob.alarmSetFunction.isSome = true

theorem AlarmJob.Heeds.of_frame {p' : AlarmJob} (h : ajob.Heeds)
    (hstate : p'.state = ajob.state) (hevents : p'.eventVector = ajob.eventVector)
    (hwait : p'.jobWait ⊆ ajob.jobWait) (hset : p'.alarmSetFunction = ajob.alarmSetFunction) :
    p'.Heeds := by
  refine ⟨fun e he => ?_, hset ▸ h.set⟩
  rw [hevents] at he
  rw [hstate]
  exact ⟨fun h0 => (h.heeds e he).1 (hwait h0), (h.heeds e he).2⟩

theorem AlarmJob.Heeds.control (h : ajob.Heeds) (e : AlarmJobControl) :
    (ajob.control e).1.Heeds := by
  rcases ajob.control_cases e with ⟨-, hcontrol⟩ | ⟨haccepts, hcontrol⟩ <;> rw [hcontrol]
  · exact h
  · refine ⟨fun e' he' => ⟨CondVar.notMem_signal 0, ?_⟩, h.set⟩
    change ajob.state.accepts e' = true
    by_cases heq : e' = e
    · rw [heq, haccepts]
    · simp only [AlarmEventVector.has_set, Function.update_of_ne heq] at he'
      exact (h.heeds e' he').2

theorem AlarmLoopAt.frame {p : AlarmJob} {t total : ℕ} {o : AlarmOutcome} {pc : AlarmPc}
    (h : AlarmLoopAt ajob t o pc total p) :
    p.state = ajob.state ∧ p.eventVector = ajob.eventVector ∧
      p.alarmSetFunction = ajob.alarmSetFunction := by
  cases h with
  | set p _ hset =>
    obtain ⟨f, -, rfl⟩ := Option.map_eq_some_iff.mp hset
    exact ⟨rfl, rfl, rfl⟩
  | _ => exact ⟨rfl, rfl, rfl⟩

theorem AlarmTurn.frame {p' : AlarmJob} {t total : ℕ} {pc' : AlarmPc}
    (h : AlarmTurn ajob t total p' pc') :
    p'.state = ajob.nextState total ∧ p'.eventVector = .zero ∧
      p'.alarmSetFunction = ajob.alarmSetFunction := by
  cases h with
  | shutdown p hp _ => rw [hp]; exact ⟨rfl, rfl, rfl⟩
  | paused p hp _ => rw [hp]; exact ⟨rfl, rfl, rfl⟩
  | waiting p time hp _ _ => rw [hp]; exact ⟨rfl, rfl, rfl⟩
  | run p hp _ => rw [hp]; exact ⟨rfl, rfl, rfl⟩

theorem AlarmMove.heeds {p' : AlarmJob} {t : ℕ} {o : AlarmOutcome} {pc pc' : AlarmPc}
    (h : AlarmMove ajob t o pc p' pc') (hp : ajob.Heeds) : p'.Heeds := by
  cases h with
  | loop pc total p p' pc' hat hturn =>
    obtain ⟨-, -, hset⟩ := hat.frame
    obtain ⟨-, hevents, hset'⟩ := hturn.frame
    refine ⟨fun e he => ?_, (hset'.trans hset) ▸ hp.set⟩
    rw [hevents, AlarmEventVector.has_zero] at he
    cases he
  | send e res _ => exact hp.control e
  | delete => exact hp.control .shutdown
  | _ => exact hp.of_frame rfl rfl Finset.Subset.rfl rfl

section

variable {alarmJobFunction : Ptr} {f : ℕ} {allocated threadError : Bool} {c : AlarmConfig}

theorem AlarmJob.alarmSetFunction_of_new {alarmSetFunction : Ptr}
    (h : AlarmJob.new alarmSetFunction alarmJobFunction allocated threadError = some ajob) :
    ajob.alarmSetFunction = alarmSetFunction := by
  unfold AlarmJob.new at h
  split at h
  · cases h
  · split at h
    · cases h
    · cases h
      rfl

theorem alarm_heeds
    (hnew : AlarmJob.new (some f) alarmJobFunction allocated threadError = some ajob)
    {ok : AlarmConfig → Act AlarmJobCall AlarmOutcome → Prop}
    (h : alarmSystem.Reach ok (alarmInit ajob) c) : c.shared.Heeds := by
  refine h.stable (R := AlarmJob.Heeds) (fun hs => (alarmStep_move hs).1.heeds) ?_ ?_
  · intro s t pc s' hs hheeds
    cases pc with
    | runnerPaused total =>
      cases hs
      exact hheeds.of_frame rfl rfl (Finset.erase_subset _ _) rfl
    | runnerWaiting total time =>
      cases hs
      exact hheeds.of_frame rfl rfl (Finset.erase_subset _ _) rfl
    | stopWaiting k =>
      cases hs
      exact hheeds.of_frame rfl rfl Finset.Subset.rfl rfl
    | _ => cases hs
  · obtain ⟨-, hevents, -, -⟩ := AlarmJob.state_of_new hnew
    refine ⟨fun e he => ?_, ?_⟩
    · rw [alarmInit, hevents, AlarmEventVector.has_zero] at he
      cases he
    · rw [alarmInit, AlarmJob.alarmSetFunction_of_new hnew]
      rfl

end

/-- How often `alarm_job_function` was called. -/
def AlarmJob.invocations (ajob : AlarmJob) : ℕ := ajob.log.countP (· == .invoked)

/-- The alarm job as a host of its machine. -/
def alarmHost : Host AlarmJob AlarmPc AlarmJobState AlarmJobControl where
  state ajob := ajob.state
  pending ajob := ajob.eventVector.has
  calls := AlarmJob.invocations
  isRunner := AlarmPc.isRunner
  due pc := pc == .runnerInvoke
  left
    | .runnerInvoke => 2
    | .runnerInvoking => 1
    | _ => 0

theorem AlarmLoopAt.invocations {p : AlarmJob} {t total : ℕ} {o : AlarmOutcome} {pc : AlarmPc}
    (h : AlarmLoopAt ajob t o pc total p) : p.invocations = ajob.invocations := by
  cases h with
  | set p _ hset =>
    obtain ⟨f, -, rfl⟩ := Option.map_eq_some_iff.mp hset
    simp [AlarmJob.invocations]
  | waiting total time elapsed _ _ => simp [AlarmJob.invocations, AlarmJob.record]
  | _ => rfl

theorem AlarmTurn.invocations {p' : AlarmJob} {t total : ℕ} {pc' : AlarmPc}
    (h : AlarmTurn ajob t total p' pc') : p'.invocations = ajob.invocations := by
  cases h with
  | shutdown p hp _ => simp [hp, AlarmJob.invocations, AlarmJob.consumeEventsAndUpdateState]
  | paused p hp _ => simp [hp, AlarmJob.invocations, AlarmJob.consumeEventsAndUpdateState]
  | waiting p time hp _ _ =>
    simp [hp, AlarmJob.invocations, AlarmJob.consumeEventsAndUpdateState]
  | run p hp _ => simp [hp, AlarmJob.invocations, AlarmJob.consumeEventsAndUpdateState]

theorem AlarmMove.turn {p' : AlarmJob} {t : ℕ} {o : AlarmOutcome} {pc pc' : AlarmPc}
    (h : AlarmMove ajob t o pc p' pc') (hrunner : pc.isRunner = true) :
    alarmHost.Turn alarmMachine ajob p' pc pc' := by
  cases h with
  | loop pc total p p' pc' hat hturn =>
    have hcalls := hturn.invocations.trans hat.invocations
    obtain ⟨hstate, hevents, -⟩ := hat.frame
    obtain ⟨hnext, hzero, -⟩ := hturn.frame
    rw [p.nextState_eq, hstate, hevents] at hnext
    refine .update _ ?_ hnext (fun e => ?_) hcalls ?_
    · cases hat <;> rfl
    · change p'.eventVector.has e = false
      rw [hzero, AlarmEventVector.has_zero]
    · cases hturn with
      | shutdown q _ hq => simp only [alarmHost, alarmMachine, hq]; rfl
      | paused q _ hq => simp only [alarmHost, alarmMachine, hq]; rfl
      | waiting q time _ hq _ => simp only [alarmHost, alarmMachine, hq]; rfl
      | run q _ hq => simp only [alarmHost, alarmMachine, hq]; rfl
  | invoke =>
    refine .call rfl rfl rfl ?_ (Nat.lt_succ_self 1)
    simp [alarmHost, AlarmJob.invocations, AlarmJob.record]
  | ended =>
    refine .other rfl rfl rfl ?_ (Nat.lt_succ_self 0)
    simp [alarmHost, AlarmJob.invocations, AlarmJob.record]
  | call k => cases hrunner
  | send e res _ => cases hrunner
  | stopPass pc k hat _ => cases hat <;> cases hrunner
  | stopWait pc k hat _ => cases hat <;> cases hrunner
  | delete => cases hrunner

theorem AlarmJob.control_sends (ajob : AlarmJob) (e : AlarmJobControl) :
    alarmHost.Sends ajob (ajob.control e).1 := by
  rcases ajob.control_cases e with ⟨-, hcontrol⟩ | ⟨-, hcontrol⟩ <;> rw [hcontrol]
  · exact ⟨rfl, fun _ => id, rfl⟩
  · refine ⟨rfl, fun e' he' => ?_, by simp [alarmHost, AlarmJob.invocations]⟩
    change (ajob.eventVector.set e).has e' = true
    rw [AlarmEventVector.has_set, Function.update_apply]
    split
    · rfl
    · exact he'

theorem AlarmMove.sends {p' : AlarmJob} {t : ℕ} {o : AlarmOutcome} {pc pc' : AlarmPc}
    (h : AlarmMove ajob t o pc p' pc') (hclient : pc.isRunner = false) :
    alarmHost.Sends ajob p' := by
  cases h with
  | loop pc total p p' pc' hat _ => cases hat <;> cases hclient
  | invoke => cases hclient
  | ended => cases hclient
  | send e res _ => exact ajob.control_sends e
  | delete => exact ajob.control_sends .shutdown
  | _ => exact ⟨rfl, fun _ => id, rfl⟩

section

variable {alarmJobFunction : Ptr} {f : ℕ} {allocated threadError : Bool} {c : AlarmConfig}

/-- A runner that is to call the function, or for which an event is pending, is awake. -/
theorem alarm_runner_awake {ok : AlarmConfig → Act AlarmJobCall AlarmOutcome → Prop} {pc : AlarmPc}
    (hnew : AlarmJob.new (some f) alarmJobFunction allocated threadError = some ajob)
    (h : alarmSystem.Reach ok (alarmInit ajob) c) (hpc : c.pc? 0 = some pc)
    (hgoes : pc = .runnerInvoke ∨ ∃ e, c.shared.eventVector.has e = true) :
    c.shared.rests 0 pc = false := by
  have hinv := alarm_runner_invariant (AlarmJob.state_of_new hnew).1 h
  obtain ⟨q, hq, hrunner, -⟩ := hinv.first
  rw [hpc] at hq
  cases hq
  rcases hgoes with rfl | ⟨e, he⟩
  · rfl
  · obtain ⟨hawake, haccepts⟩ := (alarm_heeds hnew h).heeds e he
    cases pc with
    | runnerPaused total => exact decide_eq_false hawake
    | runnerWaiting total time => exact decide_eq_false hawake
    | runnerDone =>
      -- a job that is shut down accepts no event
      have hstate : c.shared.state = .shutdown := hinv.holds hpc
      rw [hstate] at haccepts
      cases e <;> cases haccepts
    | returned r => cases hrunner
    | stopWaiting k => cases hrunner
    | _ => rfl

theorem alarm_canStep {t : ℕ} {pc : AlarmPc}
    (hnew : AlarmJob.new (some f) alarmJobFunction allocated threadError = some ajob)
    (h : alarmSystem.Reach Uint64Periods (alarmInit ajob) c) (hpc : c.pc? t = some pc)
    (hawake : c.shared.rests t pc = false) : System.CanStep alarmSystem Uint64Periods c t :=
  .of_isSome (o := ⟨0, 0⟩) hpc (Nat.zero_le _)
    (alarmStep_isSome (alarm_heeds hnew h).set hawake)

theorem alarm_runs
    (hnew : AlarmJob.new (some f) alarmJobFunction allocated threadError = some ajob) :
    alarmHost.Runs alarmMachine alarmSystem Uint64Periods (alarmInit ajob) where
  sole {c} h := by
    have hinv := alarm_runner_invariant (AlarmJob.state_of_new hnew).1 h
    obtain ⟨pc, hpc, hrunner, hat⟩ := hinv.first
    refine ⟨hinv.only, pc, hpc, hrunner, fun hdue => ?_⟩
    obtain rfl : pc = .runnerInvoke := eq_of_beq hdue
    exact beq_of_eq hat
  start _ _ := rfl
  can h hpc hgoes :=
    alarm_canStep hnew h hpc (alarm_runner_awake hnew h hpc (hgoes.imp_left eq_of_beq))
  turn hs := (alarmStep_move hs).1.turn
  sends hs := (alarmStep_move hs).1.sends
  wake hs := by
    obtain ⟨_, _, -, rfl⟩ := alarmWake_frame hs
    exact ⟨rfl, fun _ => id, rfl⟩

end

/-! ## Events -/

section

variable {alarmJobFunction : Ptr} {f : ℕ} {allocated threadError : Bool}

end

/-- How many sections a call has before it when the job is shut down. -/
def AlarmPc.left : AlarmPc → ℕ
  | .calling _ => 3
  | .delete => 2
  | .send _ => 1
  | .stopTest _ => 1
  | .stopWaiting _ => 1
  | _ => 0

theorem StopWaiter.alarmStopped_shutdown (k : StopWaiter) : k.alarmStopped .shutdown = true := by
  cases k <;> rfl

theorem AlarmMove.left_lt {p' : AlarmJob} {t : ℕ} {o : AlarmOutcome} {pc pc' : AlarmPc}
    (h : AlarmMove ajob t o pc p' pc') (hstate : ajob.state = .shutdown) (hleft : 0 < pc.left) :
    pc'.left < pc.left := by
  cases h with
  | loop pc total p p' pc' hat _ => cases hat <;> cases hleft
  | invoke => cases hleft
  | ended => cases hleft
  | call k => cases k <;> simp [AlarmJobCall.start, AlarmPc.left]
  | stopPass pc k hat _ => cases hat <;> exact Nat.zero_lt_one
  | stopWait pc k _ hgoes =>
    rw [hstate, k.alarmStopped_shutdown] at hgoes
    cases hgoes
  | delete => exact Nat.lt_succ_self 1
  | _ => exact Nat.zero_lt_one

/-- A client that is not returned has sections before it. -/
theorem AlarmPc.client_cases {pc : AlarmPc} (h : pc.left = 0) :
    pc.isRunner = true ∨ ∃ r, pc = .returned r := by
  cases pc with
  | returned r => exact .inr ⟨r, rfl⟩
  | calling k => cases h
  | send e => cases h
  | stopTest k => cases h
  | stopWaiting k => cases h
  | delete => cases h
  | _ => exact .inl rfl

/-- The runner of a job that is shut down has ended. -/
theorem AlarmRunnerInv.done {c : AlarmConfig} (hc : AlarmRunnerInv c)
    (hstate : c.shared.state = .shutdown) : c.pc? 0 = some .runnerDone := by
  obtain ⟨pc, hpc, hrunner, hat⟩ := hc.first
  rw [hstate] at hat
  cases pc with
  | runnerDone => exact hpc
  | runnerTop => rcases hat with hat | hat <;> cases hat
  | runnerPaused total => cases hat
  | runnerWaiting total time => cases hat
  | runnerInvoke => cases hat
  | runnerInvoking => cases hat
  | _ => cases hrunner

section

variable {alarmJobFunction : Ptr} {f : ℕ} {allocated threadError : Bool} {c : AlarmConfig}

theorem alarm_returns
    (hnew : AlarmJob.new (some f) alarmJobFunction allocated threadError = some ajob) :
    System.Returns alarmSystem Uint64Periods (alarmInit ajob)
      (fun c => c.shared.state = .shutdown) (fun _ => AlarmPc.left) where
  keep {c a c'} h hstate _ hn := by
    have hinv := alarm_runner_invariant (AlarmJob.state_of_new hnew).1 h
    exact (alarm_shutdown_final hinv hstate (.tail .refl trivial hn)).1
  can {c t pc} h hstate hpc hleft := by
    refine alarm_canStep hnew h hpc ?_
    obtain ⟨-, -, hnobody, -⟩ := AlarmJob.state_of_new hnew
    have hwaiting : System.StillWaiting AlarmJob.stopWait AlarmMustWait c :=
      alarm_keepsWaiting.reach (.of_empty hnobody) h
    cases pc with
    | stopWaiting k =>
      apply decide_eq_false
      intro hsleeps
      have hgoes := AlarmMustWait.goes (hwaiting.must hsleeps hpc)
      rw [hstate, k.alarmStopped_shutdown] at hgoes
      cases hgoes
    | runnerDone => cases hleft
    | returned r => cases hleft
    | runnerPaused total => cases hleft
    | runnerWaiting total time => cases hleft
    | _ => rfl
  step _ hstate _ hleft hs := (alarmStep_move hs).1.left_lt hstate hleft
  other _ _ _ _ _ := le_rfl
  wake _ _ _ _ := le_rfl

theorem AlarmMove.shutdown {p' : AlarmJob} {t : ℕ} {o : AlarmOutcome} {pc pc' : AlarmPc}
    (h : AlarmMove ajob t o pc p' pc') (hstate : ajob.state = .shutdown) :
    p'.state = .shutdown := by
  cases h with
  | loop pc total p p' pc' hat hturn =>
    rw [hturn.frame.1, AlarmJob.nextState, hat.frame.1, hstate]
  | send e res _ => rw [ajob.control_state, hstate]
  | delete => rw [ajob.control_state, hstate]
  | _ => exact hstate

/-- A job that is deleted is shut down. -/
theorem alarm_deleted_upholds :
    System.Upholds alarmSystem (fun _ => True)
      fun ajob pc => pc = .returned (.stopped .delete) → ajob.state = .shutdown where
  start _ _ _ := nofun
  step {ajob t pc o p' pc' new} hs _ _ := by
    obtain ⟨hmove, rfl⟩ := alarmStep_move hs
    refine ⟨trivial, ?_, nofun, fun q hq hdeleted => hmove.shutdown (hq hdeleted)⟩
    intro hdeleted
    cases hmove with
    | loop pc total p p' pc' _ hturn => cases hturn <;> cases hdeleted
    | call k => cases k <;> cases hdeleted
    | stopPass pc k _ hstopped =>
      cases hdeleted
      exact eq_of_beq hstopped
    | _ => cases hdeleted
  wake hs _ := by
    obtain ⟨_, _, -, rfl⟩ := alarmWake_frame hs
    exact ⟨trivial, fun _ => id⟩

theorem alarm_freed_shutdown (h : AlarmReach ajob c) (hfreed : AlarmFreed c) :
    c.shared.state = .shutdown := by
  obtain ⟨t, hpc⟩ := List.mem_iff_getElem?.mp hfreed
  refine (alarm_deleted_upholds.reach trivial ?_ h).2 t _ hpc rfl
  intro u pc hpc hdeleted
  cases u with
  | zero => cases hpc; cases hdeleted
  | succ u => cases hpc

/-- In a run without a free, after an accepted shutdown the runner ends, the function is
    not called any more and every call returns. -/
theorem alarm_calls_return
    (hnew : AlarmJob.new (some f) alarmJobFunction allocated threadError = some ajob)
    (r : AlarmJobRun ajob) {n t : ℕ} {pc : AlarmPc}
    (hstop : (r.config n).shared.state = .shutdown ∨
      (r.config n).shared.eventVector.has .shutdown = true)
    (hpc : (r.config n).pc? t = some pc) :
    ∃ m, n ≤ m ∧ ∀ l, m ≤ l → (r.config l).shared.state = .shutdown ∧
      (r.config l).pc? 0 = some .runnerDone ∧
      (r.config l).shared.invocations = (r.config m).shared.invocations ∧
      (t = 0 ∨ ∃ res, (r.config l).pc? t = some (.returned res)) := by
  have hinv : ∀ l, AlarmRunnerInv (r.config l) := fun l =>
    alarm_runner_invariant (AlarmJob.state_of_new hnew).1 (r.reach l)
  have hshut : ∃ m, n ≤ m ∧ (r.config m).shared.state = .shutdown := by
    rcases hstop with hstate | hpending
    · exact ⟨n, le_rfl, hstate⟩
    · obtain ⟨m, hnm, ⟨pending, expired, hsent, hstate⟩, -⟩ :=
        (alarm_runs hnew).consumes r (e := .shutdown) hpending
      exact ⟨m, hnm, hstate.trans (alarm_next_shutdown (.inr (hsent _ hpending)))⟩
  obtain ⟨m, hnm, hstate⟩ := hshut
  obtain ⟨pc₁, hpc₁, -⟩ := r.follow (R := fun _ => True) (P := fun _ => True)
    (fun _ _ _ => trivial) (fun _ _ => trivial) hpc trivial hnm
  obtain ⟨k, hmk, hstate, pc', hpc', hleft⟩ := (alarm_returns hnew).eventually r hstate hpc₁
  refine ⟨k, hnm.trans hmk, fun l hkl => ?_⟩
  obtain ⟨hfinal, hcalls⟩ :=
    alarm_shutdown_final (hinv k) hstate ((r.reach_le hkl).mono fun _ _ _ => trivial)
  refine ⟨hfinal, (hinv l).done hfinal, hcalls, ?_⟩
  rcases pc'.client_cases hleft with hrunner | ⟨res, rfl⟩
  · exact .inl ((hinv k).only t pc' hpc' hrunner)
  · exact .inr ⟨res, r.pc?_of_stuck (fun _ _ => rfl) hpc' hkl⟩

/-- In every fair run of the threads on an alarm job up to its deletion, after an accepted
    shutdown the runner ends, the function is not called any more, and every call returns
    unless the job is freed before. -/
theorem alarm_shutdown_completes
    (hnew : AlarmJob.new (some f) alarmJobFunction allocated threadError = some ajob)
    (r : AlarmJobLife ajob) {n t : ℕ} {pc : AlarmPc}
    (hstop : (r.config n).shared.state = .shutdown ∨
      (r.config n).shared.eventVector.has .shutdown = true)
    (hpc : (r.config n).pc? t = some pc) :
    ∃ m, n ≤ m ∧ ∀ l, m ≤ l → (r.config l).shared.state = .shutdown ∧
      (r.config l).pc? 0 = some .runnerDone ∧
      (r.config l).shared.invocations = (r.config m).shared.invocations ∧
      (AlarmFreed (r.config l) ∨ t = 0 ∨ ∃ res, (r.config l).pc? t = some (.returned res)) := by
  rcases r.freed_or_never n with ⟨m, hnm, hfreed⟩ | hnever
  · refine ⟨m, hnm, fun l hml => ?_⟩
    have hreach : AlarmReach ajob (r.config m) := (r.reach m).mono fun _ _ _ => trivial
    have hstate := alarm_freed_shutdown hreach hfreed
    rw [r.config_of_freed hfreed hml]
    exact ⟨hstate, (alarm_runner_invariant (AlarmJob.state_of_new hnew).1 hreach).done hstate,
      rfl, .inl hfreed⟩
  · obtain ⟨m, hnm, hcalls⟩ := alarm_calls_return hnew (r.neverFreed hnever) hstop hpc
    refine ⟨m, hnm, fun l hml => ?_⟩
    obtain ⟨hstate, hdone, hsame, hreturned⟩ := hcalls l hml
    exact ⟨hstate, hdone, hsame, .inr hreturned⟩

end

/-- A waiting alarm job is deleted. -/
def deletedAlarmRun : AlarmJobLife newAlarm :=
  .ofCheck _
    [.step 0 ⟨0, 0⟩, .call (.send .wakeUp) ⟨0, 0⟩, .step 1 ⟨0, 0⟩, .step 0 ⟨0, 0⟩, .step 0 ⟨0, 0⟩,
      .step 0 ⟨0, 0⟩, .step 0 ⟨7, 0⟩, .call .delete ⟨0, 0⟩, .step 2 ⟨0, 0⟩, .step 2 ⟨0, 0⟩,
      .step 0 ⟨0, 5⟩, .step 2 ⟨0, 0⟩]
    (by decide) (System.not_canStep AlarmJob.rests alarmStep_eq_none (by decide))

theorem alarm_shutdown_completes_deletedAlarmRun :
    ∃ m, 10 ≤ m ∧ ∀ l, m ≤ l → (deletedAlarmRun.config l).shared.state = .shutdown ∧
      (deletedAlarmRun.config l).pc? 0 = some .runnerDone ∧
      (deletedAlarmRun.config l).shared.invocations =
        (deletedAlarmRun.config m).shared.invocations ∧
      ∃ res, (deletedAlarmRun.config l).pc? 2 = some (.returned res) := by
  have hwaits : (deletedAlarmRun.config 10).pc? 2 = some (.stopWaiting .delete) := by decide
  obtain ⟨m, hm, hcalls⟩ :=
    alarm_shutdown_completes (Option.some_get _).symm deletedAlarmRun (.inr (by decide)) hwaits
  refine ⟨m, hm, fun l hml => ?_⟩
  obtain ⟨hstate, hdone, hsame, hfreed | hrunner | hreturned⟩ := hcalls l hml
  · refine ⟨hstate, hdone, hsame, .stopped .delete, ?_⟩
    rw [← deletedAlarmRun.config_of_freed hfreed (le_max_left l 12), deletedAlarmRun,
      System.FairRun.ofCheck_config (le_max_right l 12)]
    decide
  · cases hrunner
  · exact ⟨hstate, hdone, hsame, hreturned⟩

/-! ## The alarm -/

/-- Time passes: while the runner waits for an alarm for ever, its waits end again and
    again, and report some time. -/
def AlarmTimePasses (r : AlarmJobRun ajob) : Prop :=
  ∀ n, (∀ m, n ≤ m → ∃ total time,
      (r.config m).pc? 0 = some (.runnerWaiting total time) ∧ time ≠ blocking) →
    ∃ m, n ≤ m ∧ ∃ total time o, (r.config m).pc? 0 = some (.runnerWaiting total time) ∧
      r.act m = some (.step 0 o) ∧ leftOf time o.remaining < time

/-- The job is paused or shut down, or its runner waits for ever. -/
def AlarmSilent (c : AlarmConfig) : Prop :=
  c.shared.state = .paused ∨ c.shared.state = .shutdown ∨
    ∃ total, c.pc? 0 = some (.runnerWaiting total blocking)

/-- What the runner has waited for, where it waits for an alarm. -/
def AlarmPc.waitedFor? : AlarmPc → Option ℕ
  | .runnerWaiting total _ => some total
  | _ => none

theorem AlarmPc.eq_runnerWaiting {pc : AlarmPc} {k : ℕ} (h : pc.waitedFor? = some k) :
    ∃ time, pc = .runnerWaiting k time := by
  cases pc with
  | runnerWaiting total time =>
    cases h
    exact ⟨time, rfl⟩
  | _ => cases h

/-- The period fits `uint64_t`, and a timed wait cannot overflow what was waited for. -/
structure AlarmAccount (c : AlarmConfig) : Prop where
  period : c.shared.periodInMicroseconds ≤ blocking
  total : ∀ total time, c.pc? 0 = some (.runnerWaiting total time) → total + time ≤ blocking

theorem leftOf_le (timeout remaining : ℕ) : leftOf timeout remaining ≤ timeout := by
  unfold leftOf
  split
  · rename_i heq
    exact heq.ge
  · exact Nat.min_le_right _ _

/-- A period is changed by the runner alone, when it asks for it. -/
theorem AlarmMove.period {p' : AlarmJob} {t : ℕ} {o : AlarmOutcome} {pc pc' : AlarmPc}
    (h : AlarmMove ajob t o pc p' pc') : p'.periodInMicroseconds = ajob.periodInMicroseconds ∨
      (pc = .runnerTop ∧ p'.periodInMicroseconds = o.period) := by
  have hcontrol : ∀ e, (ajob.control e).1.periodInMicroseconds = ajob.periodInMicroseconds := by
    intro e
    rcases ajob.control_cases e with ⟨-, hcontrol⟩ | ⟨-, hcontrol⟩ <;> rw [hcontrol]
  cases h with
  | loop pc total p p' pc' hat hturn =>
    have hsame : p'.periodInMicroseconds = p.periodInMicroseconds := by
      cases hturn with
      | shutdown q hq _ => rw [hq]; rfl
      | paused q hq _ => rw [hq]; rfl
      | waiting q time hq _ _ => rw [hq]; rfl
      | run q hq _ => rw [hq]; rfl
    rw [hsame]
    cases hat with
    | set p _ hset =>
      obtain ⟨f, -, rfl⟩ := Option.map_eq_some_iff.mp hset
      exact .inr ⟨rfl, rfl⟩
    | _ => exact .inl rfl
  | send e res _ => exact .inl (hcontrol e)
  | delete => exact .inl (hcontrol .shutdown)
  | _ => exact .inl rfl

/-- A turn that waits has not waited for its period, and waits for what is left of it. -/
theorem AlarmMove.waits {p' : AlarmJob} {t total time : ℕ} {o : AlarmOutcome} {pc pc' : AlarmPc}
    (h : AlarmMove ajob t o pc p' pc') (hpc' : pc' = .runnerWaiting total time)
    (hat : AlarmRunnerAt ajob.state pc) (hperiod : p'.periodInMicroseconds ≤ blocking) :
    total + time = p'.periodInMicroseconds := by
  suffices hle : total ≤ p'.periodInMicroseconds ∧
      time = uint64Sub p'.periodInMicroseconds total by
    rw [hle.2, uint64Sub_of_le hle.1 hperiod]
    exact Nat.add_sub_of_le hle.1
  cases h with
  | call k => cases k <;> cases hpc'
  | loop pc total' p p' pc' hloop hturn =>
    cases hturn with
    | waiting q time' hq hstate htime =>
      cases hpc'
      refine ⟨?_, htime⟩
      cases hloop with
      | top _ => exact Nat.zero_le _
      | set p _ _ => exact Nat.zero_le _
      | paused total _ =>
        have hpaused : ajob.state = .paused := hat
        rw [hq] at hstate
        simp only [AlarmJob.consumeEventsAndUpdateState, AlarmJob.nextState, hpaused] at hstate
        split_ifs at hstate
      | waiting total time elapsed _ _ =>
        have hwaiting : (ajob.record (.elapsed elapsed)).state = .waiting := hat
        rw [hq] at hstate ⊢
        simp only [AlarmJob.consumeEventsAndUpdateState, AlarmJob.nextState, hwaiting] at hstate
        split_ifs at hstate with _ _ _ hover
        exact (Nat.lt_of_not_le hover).le
    | _ => cases hpc'
  | _ => cases hpc'

theorem AlarmAccount.next {c c' : AlarmConfig} {a : Act AlarmJobCall AlarmOutcome}
    (hc : AlarmAccount c) (hinv : AlarmRunnerInv c) (hok : Uint64Periods c a)
    (h : alarmSystem.next c a = some c') : AlarmAccount c' := by
  obtain ⟨pc, hpc, -, hat⟩ := hinv.first
  by_cases ha : ∃ o, a = .step 0 o
  · obtain ⟨o, rfl⟩ := ha
    obtain ⟨pc₁, s, pc', new, hpc₁, hs, rfl⟩ := System.stepAt_cases h
    rw [hpc] at hpc₁
    cases hpc₁
    have hmove : AlarmMove c.shared 0 o pc s pc' := (alarmStep_move hs).1
    have hperiod : s.periodInMicroseconds ≤ blocking := by
      rcases hmove.period with hsame | ⟨-, hset⟩
      · rw [hsame]
        exact hc.period
      · rw [hset]
        exact hok
    refine ⟨hperiod, fun total time hpc' => ?_⟩
    rw [Config.pc?_move_self hpc] at hpc'
    rw [hmove.waits (Option.some.inj hpc') hat hperiod]
    exact hperiod
  · obtain ⟨hkept, hchange⟩ := System.next_other h hpc fun o ho => ha ⟨o, ho⟩
    refine ⟨?_, fun total time hpc' => hc.total total time ?_⟩
    · rcases hchange with ⟨u, q, o, q', new, hu, hmoves, hs⟩ | ⟨u, q, hs⟩
      · rcases (alarmStep_move hs).1.period with hsame | ⟨rfl, -⟩
        · rw [hsame]
          exact hc.period
        · obtain ⟨-, hq⟩ := hmoves.of_start (p := AlarmPc.isRunner) (fun _ => rfl) rfl
          exact absurd (hinv.only u _ hq rfl) hu
      · obtain ⟨_, _, -, hframe⟩ := alarmWake_frame hs
        rw [hframe]
        exact hc.period
    · rw [hpc, ← hkept, hpc']

section

variable {alarmJobFunction : Ptr} {f : ℕ} {allocated threadError : Bool} {c c' : AlarmConfig}

theorem alarm_account
    (hnew : AlarmJob.new (some f) alarmJobFunction allocated threadError = some ajob)
    (h : alarmSystem.Reach Uint64Periods (alarmInit ajob) c) : AlarmAccount c := by
  have hpaused := (AlarmJob.state_of_new hnew).1
  have hinit : AlarmAccount (alarmInit ajob) := by
    refine ⟨?_, fun total time hpc => ?_⟩
    · unfold AlarmJob.new at hnew
      split_ifs at hnew
      cases hnew
      exact le_rfl
    · cases hpc
  refine h.invariant hinit ?_
  intro c a c' hc haccount hok hn
  exact haccount.next (alarm_runner_invariant hpaused hc) hok hn

/-- A turn of the loop leaves a job that is not stopped calling the function or waiting. -/
theorem AlarmTurn.goes {p' : AlarmJob} {t total : ℕ} {pc' : AlarmPc}
    (h : AlarmTurn ajob t total p' pc') (hpaused : p'.state ≠ .paused)
    (hshutdown : p'.state ≠ .shutdown) :
    pc' = .runnerInvoke ∨ ∃ time, pc' = .runnerWaiting total time := by
  cases h with
  | shutdown p _ hstate => exact absurd hstate hshutdown
  | paused p _ hstate => exact absurd hstate hpaused
  | waiting p time _ _ _ => exact .inr ⟨time, rfl⟩
  | run p _ _ => exact .inl rfl

/-- A wait that ends is added to the time waited for, and the runner calls the function
    or waits on. -/
theorem alarm_wait_adds
    (hnew : AlarmJob.new (some f) alarmJobFunction allocated threadError = some ajob)
    (h : alarmSystem.Reach Uint64Periods (alarmInit ajob) c) {total time : ℕ} {o : AlarmOutcome}
    (hpc : c.pc? 0 = some (.runnerWaiting total time))
    (hn : alarmSystem.next c (.step 0 o) = some c') (hpaused : c'.shared.state ≠ .paused)
    (hshutdown : c'.shared.state ≠ .shutdown) :
    c'.pc? 0 = some .runnerInvoke ∨ ∃ time',
      c'.pc? 0 = some (.runnerWaiting (total + (time - leftOf time o.remaining)) time') := by
  have hle := (alarm_account hnew h).total total time hpc
  have hleft := leftOf_le time o.remaining
  obtain ⟨pc, s, pc', new, hpc₁, hs, rfl⟩ := System.stepAt_cases hn
  rw [hpc] at hpc₁
  cases hpc₁
  rw [Config.pc?_move_self hpc]
  have hstep : alarmStep c.shared 0 (.runnerWaiting total time) o = some (s, pc', new) := hs
  obtain ⟨hmove, -⟩ := alarmStep_move hstep
  cases hmove with
  | stopPass pc k hat _ => cases hat
  | stopWait pc k hat _ => cases hat
  | loop pc total' p p' pc' hat hturn =>
    cases hat with
    | waiting total time elapsed _ helapsed =>
      rw [uint64Sub_of_le hleft ((Nat.le_add_left time total).trans hle)] at helapsed
      have hsum : uint64Add total elapsed = total + (time - leftOf time o.remaining) := by
        rw [helapsed]
        apply uint64Add_of_le
        omega
      rw [← hsum]
      rcases hturn.goes hpaused hshutdown with rfl | ⟨time', rfl⟩
      · exact .inl rfl
      · exact .inr ⟨time', rfl⟩

theorem alarm_waits
    (hnew : AlarmJob.new (some f) alarmJobFunction allocated threadError = some ajob) :
    alarmHost.Waits alarmMachine alarmSystem Uint64Periods (alarmInit ajob)
      AlarmPc.waitedFor? blocking AlarmSilent where
  toRuns := alarm_runs hnew
  awake {c pc} h hpc hnone hgoes := by
    refine alarm_canStep hnew h hpc ?_
    have hinv := alarm_runner_invariant (AlarmJob.state_of_new hnew).1 h
    obtain ⟨q, hq, hrunner, hat⟩ := hinv.first
    rw [hpc] at hq
    cases hq
    cases pc with
    | runnerPaused total => exact absurd (.inl hat) hgoes
    | runnerWaiting total time => cases hnone
    | runnerDone => exact absurd (.inr (.inl hat)) hgoes
    | stopWaiting k => cases hrunner
    | returned res => cases hrunner
    | _ => rfl
  step {c c' o pc pc'} h hpc hn hpc' hgoes := by
    have hpaused : c'.shared.state ≠ .paused := fun hstate => hgoes (.inl hstate)
    have hshutdown : c'.shared.state ≠ .shutdown := fun hstate => hgoes (.inr (.inl hstate))
    have hinv := alarm_runner_invariant (AlarmJob.state_of_new hnew).1 h
    obtain ⟨q, hq, hrunner, -⟩ := hinv.first
    rw [hpc] at hq
    cases hq
    cases hwaited : pc.waitedFor? with
    | some k =>
      obtain ⟨time, rfl⟩ := pc.eq_runnerWaiting hwaited
      rcases alarm_wait_adds hnew h hpc hn hpaused hshutdown with hdue | ⟨time', hwaits⟩
      · rw [hdue] at hpc'
        cases hpc'
        exact .inl rfl
      · rw [hwaits] at hpc'
        cases hpc'
        refine .inr (.inl ⟨_, rfl, ?_⟩)
        rintro k' ⟨⟩
        exact Nat.le_add_right _ _
    | none =>
      obtain ⟨pc₁, s, pc₂, new, hpc₁, hs, rfl⟩ := System.stepAt_cases hn
      rw [hpc] at hpc₁
      cases hpc₁
      rw [Config.pc?_move_self hpc] at hpc'
      cases hpc'
      have hmove : AlarmMove c.shared 0 o pc s pc' := (alarmStep_move hs).1
      cases hmove with
      | loop pc total p p' pc' hat hturn =>
        rcases hturn.goes hpaused hshutdown with rfl | ⟨time, rfl⟩
        · exact .inl rfl
        · exact .inr (.inl ⟨total, rfl, nofun⟩)
      | invoke => exact .inr (.inr ⟨rfl, Nat.lt_succ_self 1⟩)
      | ended => exact .inr (.inr ⟨rfl, Nat.zero_lt_one⟩)
      | stopPass pc k hat _ => cases hat <;> cases hrunner
      | stopWait pc k hat _ => cases hat <;> cases hrunner
      | _ => cases hrunner
  bound {c pc k} h hpc hwaited := by
    obtain ⟨time, rfl⟩ := pc.eq_runnerWaiting hwaited
    exact (Nat.le_add_right k time).trans ((alarm_account hnew h).total k time hpc)

/-- In every fair run of the threads on an alarm job in which time passes, the function is
    called again, from any moment on, unless the job comes to be paused or shut down, or
    `alarm_set_function` asks for no alarm. -/
theorem alarm_goes_off
    (hnew : AlarmJob.new (some f) alarmJobFunction allocated threadError = some ajob)
    (r : AlarmJobRun ajob) (htime : AlarmTimePasses r) (n : ℕ) :
    ∃ m, n ≤ m ∧ ((r.config n).shared.invocations < (r.config m).shared.invocations ∨
      AlarmSilent (r.config m)) := by
  refine (alarm_waits hnew).calls_again r (fun n hwaits => ?_) n
  have hwaiting : ∀ m, n ≤ m → ∃ total time,
      (r.config m).pc? 0 = some (.runnerWaiting total time) ∧ time ≠ blocking := by
    intro m hnm
    obtain ⟨⟨pc, k, hpc, hwaited, -⟩, hgoes⟩ := hwaits m hnm
    obtain ⟨time, rfl⟩ := pc.eq_runnerWaiting hwaited
    refine ⟨k, time, hpc, ?_⟩
    rintro rfl
    exact hgoes (.inr (.inr ⟨k, hpc⟩))
  obtain ⟨m, hnm, total, time, o, hpc, hact, hlt⟩ := htime n hwaiting
  refine ⟨m, hnm, ?_⟩
  rintro k ⟨pc, k', hpc', hwaited, hle⟩
  rw [hpc] at hpc'
  cases hpc'
  cases hwaited
  have hgoes := (hwaits (m + 1) (hnm.trans (Nat.le_succ m))).2
  obtain ⟨total', time', hpc', -⟩ := hwaiting (m + 1) (hnm.trans (Nat.le_succ m))
  rcases alarm_wait_adds hnew (r.reach m) hpc (r.move hact).2 (fun hstate => hgoes (.inl hstate))
    (fun hstate => hgoes (.inr (.inl hstate))) with hdue | ⟨time'', hadds⟩
  · rw [hpc'] at hdue
    cases hdue
  · exact ⟨_, _, hadds, rfl, by omega⟩

end

/-- The job waits for its alarm after 7 microseconds, with nothing pending. -/
def AwaitsAlarm (c : AlarmConfig) : Prop :=
  ∃ log, c = ⟨{ newAlarm with
      jobWait := {0}
      state := .waiting
      periodInMicroseconds := 7
      log := log },
    [.runnerWaiting 0 (uint64Sub 7 0), .returned (.sent .wakeUp true)]⟩

/-- The job is woken, and its function called after each alarm from then on. -/
theorem awaitsAlarm_loops :
    System.Loops alarmSystem Uint64Periods (alarmInit newAlarm)
      [.step 0 ⟨0, 0⟩, .call (.send .wakeUp) ⟨0, 0⟩, .step 1 ⟨0, 0⟩, .step 0 ⟨0, 0⟩,
        .step 0 ⟨0, 0⟩, .step 0 ⟨0, 0⟩, .step 0 ⟨7, 0⟩]
      [.wake 0, .step 0 ⟨0, 0⟩, .step 0 ⟨0, 0⟩, .step 0 ⟨0, 0⟩, .step 0 ⟨7, 0⟩]
      AwaitsAlarm where
  nonempty := List.cons_ne_nil _ _
  enter := ⟨_, rfl, _, rfl⟩
  turn := by
    rintro _ ⟨log, rfl⟩
    exact ⟨_, rfl, _, rfl⟩
  serves t := by
    right
    rintro _ ⟨log, rfl⟩
    refine System.not_canStep AlarmJob.rests alarmStep_eq_none ?_ t
    intro u hu pc hpc
    match u, hu with
    | 0, _ => cases hpc; rfl
    | 1, _ => cases hpc; rfl

/-- The function is called after each alarm, for ever. -/
def alarmRun : AlarmJobRun newAlarm := .ofLoop awaitsAlarm_loops

theorem alarmTimePasses_alarmRun : AlarmTimePasses alarmRun := by
  intro n _
  refine ⟨_, (awaitsAlarm_loops.le_turnAt n).trans (Nat.le_succ _), 0, uint64Sub 7 0, ⟨0, 0⟩, ?_,
    System.FairRun.ofLoop_act awaitsAlarm_loops (i := 1) (by decide) n, by decide⟩
  obtain ⟨log, hlog⟩ := System.FairRun.ofLoop_head awaitsAlarm_loops n
  have hwoken := System.FairRun.ofLoop_within awaitsAlarm_loops (i := 1) (by decide) n
  rw [hlog] at hwoken
  rw [alarmRun, ← Option.some.inj hwoken]
  rfl

theorem not_silent_alarmRun {n : ℕ} (hn : 7 ≤ n) : ¬AlarmSilent (alarmRun.config n) := by
  have hgoes : ((alarmRun.config n).shared.state = .waiting ∨
      (alarmRun.config n).shared.state = .running) ∧
      ∀ total, (alarmRun.config n).pc? 0 ≠ some (.runnerWaiting total blocking) := by
    refine System.FairRun.ofLoop_forall (P := fun c => (c.shared.state = .waiting ∨
      c.shared.state = .running) ∧ ∀ total, c.pc? 0 ≠ some (.runnerWaiting total blocking))
      awaitsAlarm_loops ?_ hn
    rintro _ ⟨log, rfl⟩ i hi c' hc'
    match i, hi with
    | 0, _ => cases hc'; exact ⟨.inl rfl, by rintro total ⟨⟩⟩
    | 1, _ => cases hc'; exact ⟨.inl rfl, by rintro total ⟨⟩⟩
    | 2, _ => cases hc'; exact ⟨.inr rfl, by rintro total ⟨⟩⟩
    | 3, _ => cases hc'; exact ⟨.inr rfl, by rintro total ⟨⟩⟩
    | 4, _ => cases hc'; exact ⟨.inr rfl, by rintro total ⟨⟩⟩
  rintro (hstate | hstate | ⟨total, hpc⟩)
  · rcases hgoes.1 with h | h <;> cases hstate.symm.trans h
  · rcases hgoes.1 with h | h <;> cases hstate.symm.trans h
  · exact hgoes.2 total hpc

theorem alarm_goes_off_alarmRun :
    AlarmTimePasses alarmRun ∧ ∀ n, 7 ≤ n → ∃ m, n ≤ m ∧
      (alarmRun.config n).shared.invocations < (alarmRun.config m).shared.invocations := by
  refine ⟨alarmTimePasses_alarmRun, fun n hn => ?_⟩
  obtain ⟨m, hnm, hcalled | hsilent⟩ :=
    alarm_goes_off (Option.some_get _).symm alarmRun alarmTimePasses_alarmRun n
  · exact ⟨m, hnm, hcalled⟩
  · exact absurd hsilent (not_silent_alarmRun (hn.trans hnm))

end BoomPar
