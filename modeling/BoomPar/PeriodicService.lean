-- SUMMARY: A periodic job under a fair scheduler: accepted events take effect, a shutdown completes, a pause settles, and a job that goes on is called again and again.
import BoomPar.Monitor.EventService
import BoomPar.PeriodicPeriods

/-!
# Service of a periodic job

Clients place events and do not wait for the runner, which may be inside the
function of the job for long. The runner comes back to the event vector after each
call, and no event is left pending while it sleeps. In a fair run the function of the
job returns. A run that does not end with the free is one of clients that make no call,
and have none under way, once `delete_periodic_job` has freed the job.
-/

namespace BoomPar

open Monitor

variable {pjob : PeriodicJob}

/-- A run of the threads on the periodic job `pjob` for ever. -/
abbrev PeriodicJobRun (pjob : PeriodicJob) :=
  System.FairRun periodicSystem (fun _ _ => True) (periodicInit pjob)

/-- `delete_periodic_job` returned: the job is freed. -/
def PeriodicFreed (c : PeriodicConfig) : Prop := .returned (.stopped .delete) ∈ c.threads

instance : DecidablePred PeriodicFreed := fun _ => inferInstanceAs (Decidable (_ ∈ _))

/-- A run on the periodic job that ends when the job is freed. -/
abbrev PeriodicJobLife (pjob : PeriodicJob) :=
  System.FairRun periodicSystem (System.BeforeFree PeriodicFreed fun _ _ => True)
    (periodicInit pjob)

/-- A thread that ended, or that is blocked. -/
def PeriodicJob.rests (pjob : PeriodicJob) (t : ℕ) : PeriodicPc → Bool
  | .runnerPaused _ => t ∈ pjob.jobWait
  | .runnerWaiting _ _ => t ∈ pjob.jobWait
  | .stopWaiting _ => t ∈ pjob.stopWait
  | .runnerDone => true
  | .returned _ => true
  | _ => false

theorem periodicStep_eq_none {t remaining : ℕ} {pc : PeriodicPc} (h : pjob.rests t pc = true) :
    periodicStep pjob t pc remaining = none := by
  cases pc with
  | runnerPaused total => exact if_pos (of_decide_eq_true h)
  | runnerWaiting total time => exact if_pos (of_decide_eq_true h)
  | stopWaiting k => exact if_pos (of_decide_eq_true h)
  | runnerDone => rfl
  | returned r => rfl
  | _ => cases h

theorem periodicStep_isSome {t remaining : ℕ} {pc : PeriodicPc} (h : pjob.rests t pc = false) :
    (periodicStep pjob t pc remaining).isSome = true := by
  cases pc with
  | runnerPaused total =>
    have hwoken : t ∉ pjob.jobWait := of_decide_eq_false h
    simp only [periodicStep, if_neg hwoken]
    rfl
  | runnerWaiting total time =>
    have hwoken : t ∉ pjob.jobWait := of_decide_eq_false h
    simp only [periodicStep, if_neg hwoken]
    rfl
  | stopWaiting k =>
    have hwoken : t ∉ pjob.stopWait := of_decide_eq_false h
    simp only [periodicStep, if_neg hwoken]
    rfl
  | runnerDone => cases h
  | returned r => cases h
  | _ => rfl

/-! ## The runner heeds the events -/

/-- While an event is pending the runner is awake, and the state is one that accepts it. -/
def PeriodicJob.Heeds (pjob : PeriodicJob) : Prop :=
  ∀ e, pjob.eventVector.has e = true → 0 ∉ pjob.jobWait ∧ pjob.state.accepts e = true

theorem PeriodicJob.Heeds.of_frame {p' : PeriodicJob} (h : pjob.Heeds)
    (hstate : p'.state = pjob.state) (hevents : p'.eventVector = pjob.eventVector)
    (hwait : p'.jobWait ⊆ pjob.jobWait) : p'.Heeds := by
  intro e he
  rw [hevents] at he
  rw [hstate]
  exact ⟨fun h0 => (h e he).1 (hwait h0), (h e he).2⟩

theorem PeriodicJob.Heeds.control (h : pjob.Heeds) (e : PeriodicJobControl) :
    (pjob.control e).1.Heeds := by
  rcases pjob.control_cases e with ⟨-, hcontrol⟩ | ⟨haccepts, hcontrol⟩ <;> rw [hcontrol]
  · exact h
  · intro e' he'
    refine ⟨CondVar.notMem_signal 0, ?_⟩
    change pjob.state.accepts e' = true
    by_cases heq : e' = e
    · rw [heq, haccepts]
    · simp only [EventVector.has_set, Function.update_of_ne heq] at he'
      exact (h e' he').2

theorem PeriodicMove.heeds {p' : PeriodicJob} {t remaining : ℕ} {pc pc' : PeriodicPc}
    (h : PeriodicMove pjob t remaining pc p' pc') (hp : pjob.Heeds) : p'.Heeds := by
  cases h with
  | loop pc total p p' pc' _ hturn =>
    intro e he
    rw [hturn.events.2, EventVector.has_zero] at he
    cases he
  | send e res _ => exact hp.control e
  | updatePeriod n res _ =>
    obtain ⟨_, _, hframe, hsub⟩ := pjob.updatePeriod_frame n
    rw [hframe]
    exact hp.of_frame rfl rfl hsub
  | delete => exact hp.control .shutdown
  | _ => exact hp.of_frame rfl rfl Finset.Subset.rfl

theorem periodic_heeds {c : PeriodicConfig} {periodicJobFunction : Ptr} {n : ℕ}
    {allocated threadError : Bool}
    (hnew : PeriodicJob.new periodicJobFunction n allocated threadError = some pjob)
    (h : PeriodicReach pjob c) : c.shared.Heeds := by
  refine h.stable (R := PeriodicJob.Heeds) (fun hs => (periodicStep_move hs).1.heeds) ?_ ?_
  · intro s t pc s' hs hheeds
    cases pc with
    | runnerPaused total => cases hs; exact hheeds.of_frame rfl rfl (Finset.erase_subset _ _)
    | runnerWaiting total time => cases hs; exact hheeds.of_frame rfl rfl (Finset.erase_subset _ _)
    | stopWaiting k => cases hs; exact hheeds.of_frame rfl rfl Finset.Subset.rfl
    | _ => cases hs
  · intro e he
    rw [periodicInit, (PeriodicJob.state_of_new hnew).2, EventVector.has_zero] at he
    cases he

/-- How often the function of the job was called. -/
def PeriodicJob.invocations (pjob : PeriodicJob) : ℕ := pjob.log.countP (· == .invoked)

/-- The periodic job as a host of its machine. -/
def periodicHost : Host PeriodicJob PeriodicPc PeriodicJobState PeriodicJobControl where
  state pjob := pjob.state
  pending pjob := pjob.eventVector.has
  calls := PeriodicJob.invocations
  isRunner := PeriodicPc.isRunner
  due pc := pc == .runnerInvoke
  left
    | .runnerInvoke => 2
    | .runnerInvoking => 1
    | _ => 0

/-- Consuming the events and blocking do not call the function. -/
theorem LoopTurn.invocations {p p' : PeriodicJob} {t remaining total : ℕ} {pc pc' : PeriodicPc}
    (hat : LoopAt pjob t remaining pc total p) (h : LoopTurn p t total p' pc') :
    p'.invocations = pjob.invocations := by
  have hbefore : p.invocations = pjob.invocations := by
    cases hat with
    | waiting total time elapsed _ _ => simp [PeriodicJob.invocations, PeriodicJob.record]
    | _ => rfl
  obtain ⟨rest, hlog, hblocked⟩ := h.log_eq
  have hrest : rest.countP (· == .invoked) = 0 := by
    rw [List.countP_eq_zero]
    intro x hx
    obtain ⟨time, rfl, -⟩ := hblocked x hx
    exact Bool.false_ne_true
  rw [PeriodicJob.invocations, hlog, List.countP_append, List.countP_cons, hrest, ← hbefore]
  rfl

theorem PeriodicMove.turn {p' : PeriodicJob} {t remaining : ℕ} {pc pc' : PeriodicPc}
    (h : PeriodicMove pjob t remaining pc p' pc') (hrunner : pc.isRunner = true) :
    periodicHost.Turn periodicMachine pjob p' pc pc' := by
  cases h with
  | loop pc total p p' pc' hat hturn =>
    have hcalls := hturn.invocations hat
    obtain ⟨hstate, hevents⟩ := hat.events
    obtain ⟨hnext, hzero⟩ := hturn.events
    rw [p.nextState_eq, hstate, hevents] at hnext
    refine .update _ ?_ hnext (fun e => ?_) hcalls ?_
    · cases hat <;> rfl
    · change p'.eventVector.has e = false
      rw [hzero, EventVector.has_zero]
    · cases hturn with
      | shutdown q _ hq => simp only [periodicHost, periodicMachine, hq]; rfl
      | paused q _ hq => simp only [periodicHost, periodicMachine, hq]; rfl
      | waiting q time _ hq _ => simp only [periodicHost, periodicMachine, hq]; rfl
      | run q _ hq => simp only [periodicHost, periodicMachine, hq]; rfl
  | invoke =>
    refine .call rfl rfl rfl ?_ (Nat.lt_succ_self 1)
    simp [periodicHost, PeriodicJob.invocations, PeriodicJob.record]
  | ended =>
    refine .other rfl rfl rfl ?_ (Nat.lt_succ_self 0)
    simp [periodicHost, PeriodicJob.invocations, PeriodicJob.record]
  | call k => cases hrunner
  | send e res _ => cases hrunner
  | updatePeriod n res _ => cases hrunner
  | getPeriod => cases hrunner
  | stopPass pc k hat _ => cases hat <;> cases hrunner
  | stopWait pc k hat _ => cases hat <;> cases hrunner
  | delete => cases hrunner

theorem PeriodicJob.control_sends (pjob : PeriodicJob) (e : PeriodicJobControl) :
    periodicHost.Sends pjob (pjob.control e).1 := by
  rcases pjob.control_cases e with ⟨-, hcontrol⟩ | ⟨-, hcontrol⟩ <;> rw [hcontrol]
  · exact ⟨rfl, fun _ => id, rfl⟩
  · refine ⟨rfl, fun e' he' => ?_, by simp [periodicHost, PeriodicJob.invocations]⟩
    change (pjob.eventVector.set e).has e' = true
    rw [EventVector.has_set, Function.update_apply]
    split
    · rfl
    · exact he'

theorem PeriodicMove.sends {p' : PeriodicJob} {t remaining : ℕ} {pc pc' : PeriodicPc}
    (h : PeriodicMove pjob t remaining pc p' pc') (hclient : pc.isRunner = false) :
    periodicHost.Sends pjob p' := by
  cases h with
  | loop pc total p p' pc' hat _ => cases hat <;> cases hclient
  | invoke => cases hclient
  | ended => cases hclient
  | send e res _ => exact pjob.control_sends e
  | updatePeriod n res _ =>
    obtain ⟨_, _, hframe, -⟩ := pjob.updatePeriod_frame n
    rw [hframe]
    exact ⟨rfl, fun _ => id, rfl⟩
  | delete => exact pjob.control_sends .shutdown
  | _ => exact ⟨rfl, fun _ => id, rfl⟩

section

variable {periodicJobFunction : Ptr} {n : ℕ} {allocated threadError : Bool}

/-- A runner that is to call the function, or for which an event is pending, is awake. -/
theorem periodic_runner_awake {c : PeriodicConfig} {pc : PeriodicPc}
    (hnew : PeriodicJob.new periodicJobFunction n allocated threadError = some pjob)
    (h : PeriodicReach pjob c) (hpc : c.pc? 0 = some pc)
    (hgoes : pc = .runnerInvoke ∨ ∃ e, c.shared.eventVector.has e = true) :
    c.shared.rests 0 pc = false := by
  have hinv := runner_invariant (PeriodicJob.state_of_new hnew).1 h
  obtain ⟨q, hq, hrunner⟩ := hinv.runner
  rw [hpc] at hq
  cases hq
  rcases hgoes with rfl | ⟨e, he⟩
  · rfl
  · obtain ⟨hawake, haccepts⟩ := periodic_heeds hnew h e he
    cases pc with
    | runnerPaused total => exact decide_eq_false hawake
    | runnerWaiting total time => exact decide_eq_false hawake
    | runnerDone =>
      -- a job that is shut down accepts no event
      have hstate : c.shared.state = .shutdown := hinv.position 0 _ hpc
      rw [hstate] at haccepts
      cases e <;> cases haccepts
    | returned r => cases hrunner
    | stopWaiting k => cases hrunner
    | _ => rfl

theorem periodic_runs
    (hnew : PeriodicJob.new periodicJobFunction n allocated threadError = some pjob) :
    periodicHost.Runs periodicMachine periodicSystem (fun _ _ => True) (periodicInit pjob) where
  sole {c} h := by
    have hinv := runner_invariant (PeriodicJob.state_of_new hnew).1 h
    obtain ⟨pc, hpc, hrunner⟩ := hinv.runner
    refine ⟨hinv.only, pc, hpc, hrunner, fun hdue => ?_⟩
    obtain rfl : pc = .runnerInvoke := eq_of_beq hdue
    exact hinv.position 0 _ hpc
  start _ _ := rfl
  can h hpc hgoes := by
    refine .of_isSome (o := 0) hpc trivial (periodicStep_isSome ?_)
    exact periodic_runner_awake hnew h hpc (hgoes.imp_left eq_of_beq)
  turn hs := (periodicStep_move hs).1.turn
  sends hs := (periodicStep_move hs).1.sends
  wake hs := by
    obtain ⟨_, _, rfl⟩ := periodicWake_frame hs
    exact ⟨rfl, fun _ => id, rfl⟩

end

/-! ## Events -/

section

variable {periodicJobFunction : Ptr} {period : ℕ} {allocated threadError : Bool}

end

/-- How many sections a call has before it when the job is shut down. -/
def PeriodicPc.left : PeriodicPc → ℕ
  | .calling _ => 3
  | .delete => 2
  | .send _ => 1
  | .updatePeriod _ => 1
  | .getPeriod => 1
  | .stopTest _ => 1
  | .stopWaiting _ => 1
  | _ => 0

theorem StopWaiter.stopped_shutdown (k : StopWaiter) : k.stopped .shutdown = true := by
  cases k <;> rfl

theorem PeriodicMove.left_lt {p' : PeriodicJob} {t remaining : ℕ} {pc pc' : PeriodicPc}
    (h : PeriodicMove pjob t remaining pc p' pc') (hstate : pjob.state = .shutdown)
    (hleft : 0 < pc.left) : pc'.left < pc.left := by
  cases h with
  | loop pc total p p' pc' hat _ => cases hat <;> cases hleft
  | invoke => cases hleft
  | ended => cases hleft
  | call k => cases k <;> simp [PeriodicJobCall.start, PeriodicPc.left]
  | stopPass pc k hat _ => cases hat <;> exact Nat.zero_lt_one
  | stopWait pc k _ hgoes =>
    rw [hstate, k.stopped_shutdown] at hgoes
    cases hgoes
  | delete => exact Nat.lt_succ_self 1
  | _ => exact Nat.zero_lt_one

/-- A client that is not returned has sections before it. -/
theorem PeriodicPc.client_cases {pc : PeriodicPc} (h : pc.left = 0) :
    pc.isRunner = true ∨ ∃ r, pc = .returned r := by
  cases pc with
  | returned r => exact .inr ⟨r, rfl⟩
  | calling k => cases h
  | send e => cases h
  | updatePeriod n => cases h
  | getPeriod => cases h
  | stopTest k => cases h
  | stopWaiting k => cases h
  | delete => cases h
  | _ => exact .inl rfl

section

variable {periodicJobFunction : Ptr} {period : ℕ} {allocated threadError : Bool}

/-- A thread in a wait loop on `stop_wait` whose condition is met is awake. -/
theorem periodic_waiter_awake {c : PeriodicConfig} {t : ℕ} {k : StopWaiter}
    (hnew : PeriodicJob.new periodicJobFunction period allocated threadError = some pjob)
    (h : PeriodicReach pjob c) (hpc : c.pc? t = some (.stopWaiting k))
    (hstopped : k.stopped c.shared.state = true) : c.shared.rests t (.stopWaiting k) = false := by
  have hwaiting : System.StillWaiting PeriodicJob.stopWait PeriodicMustWait c :=
    periodic_keepsWaiting.reach (.of_empty (PeriodicJob.new_fresh hnew).1) h
  apply decide_eq_false
  intro hsleeps
  have hgoes := PeriodicMustWait.goes (hwaiting.must hsleeps hpc)
  rw [hstopped] at hgoes
  cases hgoes

theorem periodic_returns
    (hnew : PeriodicJob.new periodicJobFunction period allocated threadError = some pjob) :
    System.Returns periodicSystem (fun _ _ => True) (periodicInit pjob)
      (fun c => c.shared.state = .shutdown) (fun _ => PeriodicPc.left) where
  keep {c a c'} h hstate hok hn := by
    have hinv := runner_invariant (PeriodicJob.state_of_new hnew).1 h
    exact (periodic_shutdown_final hinv hstate (.tail .refl hok hn)).1
  can {c t pc} h hstate hpc hleft := by
    refine .of_isSome (o := 0) hpc trivial (periodicStep_isSome ?_)
    cases pc with
    | stopWaiting k =>
      apply periodic_waiter_awake hnew h hpc
      rw [hstate, k.stopped_shutdown]
    | runnerDone => cases hleft
    | returned r => cases hleft
    | runnerPaused total => cases hleft
    | runnerWaiting total time => cases hleft
    | _ => rfl
  step _ hstate _ hleft hs := (periodicStep_move hs).1.left_lt hstate hleft
  other _ _ _ _ _ := le_rfl
  wake _ _ _ _ := le_rfl

/-- The runner of a job that is shut down has ended. -/
theorem RunnerInv.done {c : PeriodicConfig} (hc : RunnerInv c)
    (hstate : c.shared.state = .shutdown) : c.pc? 0 = some .runnerDone := by
  obtain ⟨pc, hpc, hrunner⟩ := hc.runner
  have hat := hc.position 0 pc hpc
  rw [hstate] at hat
  cases pc with
  | runnerDone => exact hpc
  | runnerTop => rcases hat with hat | hat <;> cases hat
  | runnerPaused total => cases hat
  | runnerWaiting total time => cases hat
  | runnerInvoke => cases hat
  | runnerInvoking => cases hat
  | _ => cases hrunner

theorem PeriodicMove.shutdown {p' : PeriodicJob} {t remaining : ℕ} {pc pc' : PeriodicPc}
    (h : PeriodicMove pjob t remaining pc p' pc') (hstate : pjob.state = .shutdown) :
    p'.state = .shutdown := by
  rcases h.events with ⟨p, total, hp, -, hnext, -⟩ | ⟨hsame, -⟩
  · rw [hnext, PeriodicJob.nextState, hp, hstate]
  · exact hsame.trans hstate

/-- A job that is deleted is shut down. -/
theorem periodic_deleted_upholds :
    System.Upholds periodicSystem (fun _ => True)
      fun pjob pc => pc = .returned (.stopped .delete) → pjob.state = .shutdown where
  start _ _ _ := nofun
  step {pjob t pc o p' pc' new} hs _ _ := by
    obtain ⟨hmove, rfl⟩ := periodicStep_move hs
    refine ⟨trivial, ?_, nofun, fun q hq hdeleted => hmove.shutdown (hq hdeleted)⟩
    intro hdeleted
    cases hmove with
    | loop pc total p p' pc' _ hturn => cases hturn <;> cases hdeleted
    | call k => cases k <;> cases hdeleted
    | stopPass pc k _ hstopped =>
      cases hdeleted
      exact eq_of_beq hstopped
    | _ => cases hdeleted
  wake hs _ := by
    obtain ⟨_, _, rfl⟩ := periodicWake_frame hs
    exact ⟨trivial, fun _ => id⟩

theorem periodic_freed_shutdown {c : PeriodicConfig} (h : PeriodicReach pjob c)
    (hfreed : PeriodicFreed c) : c.shared.state = .shutdown := by
  obtain ⟨t, hpc⟩ := List.mem_iff_getElem?.mp hfreed
  refine (periodic_deleted_upholds.reach trivial ?_ h).2 t _ hpc rfl
  intro u pc hpc hdeleted
  cases u with
  | zero => cases hpc; cases hdeleted
  | succ u => cases hpc

/-- In a run without a free, after an accepted shutdown the runner ends, the function is
    not called any more and every call returns. -/
theorem periodic_calls_return
    (hnew : PeriodicJob.new periodicJobFunction period allocated threadError = some pjob)
    (r : PeriodicJobRun pjob) {n t : ℕ} {pc : PeriodicPc} (hstop : Stopping (r.config n).shared)
    (hpc : (r.config n).pc? t = some pc) :
    ∃ m, n ≤ m ∧ ∀ l, m ≤ l → (r.config l).shared.state = .shutdown ∧
      (r.config l).pc? 0 = some .runnerDone ∧
      (r.config l).shared.invocations = (r.config m).shared.invocations ∧
      (t = 0 ∨ ∃ res, (r.config l).pc? t = some (.returned res)) := by
  have hinv : ∀ l, RunnerInv (r.config l) := fun l =>
    runner_invariant (PeriodicJob.state_of_new hnew).1 (r.reach l)
  have hshut : ∃ m, n ≤ m ∧ (r.config m).shared.state = .shutdown := by
    rcases hstop with hstate | hpending
    · exact ⟨n, le_rfl, hstate⟩
    · obtain ⟨m, hnm, ⟨pending, expired, hsent, hstate⟩, -⟩ :=
        (periodic_runs hnew).consumes r (e := .shutdown) hpending
      exact ⟨m, hnm, hstate.trans (periodic_next_shutdown (.inr (hsent _ hpending)))⟩
  obtain ⟨m, hnm, hstate⟩ := hshut
  obtain ⟨pc₁, hpc₁, -⟩ := r.follow (R := fun _ => True) (P := fun _ => True)
    (fun _ _ _ => trivial) (fun _ _ => trivial) hpc trivial hnm
  obtain ⟨k, hmk, hstate, pc', hpc', hleft⟩ := (periodic_returns hnew).eventually r hstate hpc₁
  refine ⟨k, hnm.trans hmk, fun l hkl => ?_⟩
  obtain ⟨hfinal, hcalls⟩ := periodic_shutdown_final (hinv k) hstate (r.reach_le hkl)
  refine ⟨hfinal, (hinv l).done hfinal, hcalls, ?_⟩
  rcases pc'.client_cases hleft with hrunner | ⟨res, rfl⟩
  · exact .inl ((hinv k).only t pc' hpc' hrunner)
  · exact .inr ⟨res, r.pc?_of_stuck (fun _ _ => rfl) hpc' hkl⟩

/-- In every fair run of the threads on a periodic job up to its deletion, after an accepted
    shutdown the runner ends, the function is not called any more, and every call returns
    unless the job is freed before. -/
theorem periodic_shutdown_completes
    (hnew : PeriodicJob.new periodicJobFunction period allocated threadError = some pjob)
    (r : PeriodicJobLife pjob) {n t : ℕ} {pc : PeriodicPc} (hstop : Stopping (r.config n).shared)
    (hpc : (r.config n).pc? t = some pc) :
    ∃ m, n ≤ m ∧ ∀ l, m ≤ l → (r.config l).shared.state = .shutdown ∧
      (r.config l).pc? 0 = some .runnerDone ∧
      (r.config l).shared.invocations = (r.config m).shared.invocations ∧
      (PeriodicFreed (r.config l) ∨ t = 0 ∨ ∃ res, (r.config l).pc? t = some (.returned res)) := by
  rcases r.freed_or_never n with ⟨m, hnm, hfreed⟩ | hnever
  · refine ⟨m, hnm, fun l hml => ?_⟩
    have hreach : PeriodicReach pjob (r.config m) := (r.reach m).mono fun _ _ _ => trivial
    have hstate := periodic_freed_shutdown hreach hfreed
    rw [r.config_of_freed hfreed hml]
    exact ⟨hstate, (runner_invariant (PeriodicJob.state_of_new hnew).1 hreach).done hstate, rfl,
      .inl hfreed⟩
  · obtain ⟨m, hnm, hcalls⟩ := periodic_calls_return hnew (r.neverFreed hnever) hstop hpc
    refine ⟨m, hnm, fun l hml => ?_⟩
    obtain ⟨hstate, hdone, hsame, hreturned⟩ := hcalls l hml
    exact ⟨hstate, hdone, hsame, .inr hreturned⟩

end

/-- A pause waits, and a shutdown comes while the function runs. -/
def shutdownRun : PeriodicJobLife tenMicroseconds :=
  .ofCheck _
    [.step 0 0, .call (.send .resume) 0, .step 1 0, .step 0 0, .step 0 0,
      .call .waitForPauseOrShutdown 0, .step 2 0, .call (.send .shutdown) 0, .step 3 0, .step 0 0,
      .step 0 0, .step 2 0]
    (by decide) (System.not_canStep PeriodicJob.rests periodicStep_eq_none (by decide))

theorem periodic_shutdown_completes_shutdownRun :
    ∃ m, 9 ≤ m ∧ ∀ l, m ≤ l → (shutdownRun.config l).shared.state = .shutdown ∧
      (shutdownRun.config l).pc? 0 = some .runnerDone ∧
      (shutdownRun.config l).shared.invocations = (shutdownRun.config m).shared.invocations ∧
      ∃ res, (shutdownRun.config l).pc? 2 = some (.returned res) := by
  have hwaits : (shutdownRun.config 9).pc? 2 = some (.stopWaiting .pauseOrShutdown) := by decide
  obtain ⟨m, hm, hcalls⟩ :=
    periodic_shutdown_completes (Option.some_get _).symm shutdownRun (by decide) hwaits
  refine ⟨m, hm, fun l hml => ?_⟩
  obtain ⟨hstate, hdone, hsame, hfreed | hrunner | hreturned⟩ := hcalls l hml
  · have hlast := shutdownRun.freed_stays hfreed (le_max_left l 12)
    rw [shutdownRun, System.FairRun.ofCheck_config (le_max_right l 12)] at hlast
    exact absurd hlast (by decide)
  · cases hrunner
  · exact ⟨hstate, hdone, hsame, hreturned⟩

/-! ## A pause -/

/-- The states that a pause comes to. -/
def PeriodicJobState.stopped (state : PeriodicJobState) : Prop :=
  state = .paused ∨ state = .shutdown

section

variable {periodicJobFunction : Ptr} {period : ℕ} {allocated threadError : Bool}

end

/-- Time passes: while the runner waits for its period for ever, its waits end again and
    again, and report some time. -/
def TimePasses (r : PeriodicJobRun pjob) : Prop :=
  ∀ n, (∀ m, n ≤ m → ∃ total time, (r.config m).pc? 0 = some (.runnerWaiting total time)) →
    ∃ m, n ≤ m ∧ ∃ total time remaining,
      (r.config m).pc? 0 = some (.runnerWaiting total time) ∧
      r.act m = some (.step 0 remaining) ∧ leftOf time remaining < time

/-- What the runner has waited for, where it waits for its period. -/
def PeriodicPc.waitedFor? : PeriodicPc → Option ℕ
  | .runnerWaiting total _ => some total
  | _ => none

theorem PeriodicPc.eq_runnerWaiting {pc : PeriodicPc} {k : ℕ} (h : pc.waitedFor? = some k) :
    ∃ time, pc = .runnerWaiting k time := by
  cases pc with
  | runnerWaiting total time =>
    cases h
    exact ⟨time, rfl⟩
  | _ => cases h

section

variable {periodicJobFunction : Ptr} {period : ℕ} {allocated threadError : Bool}
  {c c' : PeriodicConfig}

theorem periodic_account
    (hnew : PeriodicJob.new periodicJobFunction period allocated threadError = some pjob)
    (h : PeriodicReach pjob c) : System.Sole PeriodicPc.isRunner AccountAt c := by
  have hpaused : pjob.state = .paused := (PeriodicJob.state_of_new hnew).1
  have hwaited : timeWaited pjob.log = 0 := by
    rw [(PeriodicJob.new_fresh hnew).2]
    rfl
  refine account_serves.reach ⟨(runnerInv_init hpaused).only, .runnerTop, rfl, rfl, ?_⟩ h
  exact ⟨.inl hpaused, hwaited, hwaited ▸ by decide⟩

/-- A turn of the loop leaves a job that is not stopped calling the function or waiting. -/
theorem LoopTurn.goes {p' : PeriodicJob} {t total : ℕ} {pc' : PeriodicPc}
    (h : LoopTurn pjob t total p' pc') (hgoes : ¬p'.state.stopped) :
    pc' = .runnerInvoke ∨ ∃ time, pc' = .runnerWaiting total time := by
  cases h with
  | shutdown p _ hstate => exact absurd (.inr hstate) hgoes
  | paused p _ hstate => exact absurd (.inl hstate) hgoes
  | waiting p time _ _ _ => exact .inr ⟨time, rfl⟩
  | run p _ _ => exact .inl rfl

/-- A wait that ends is added to the time waited for, and the runner calls the function
    or waits on. -/
theorem wait_adds
    (hnew : PeriodicJob.new periodicJobFunction period allocated threadError = some pjob)
    (h : PeriodicReach pjob c) {total time remaining : ℕ}
    (hpc : c.pc? 0 = some (.runnerWaiting total time))
    (hn : periodicSystem.next c (.step 0 remaining) = some c') (hgoes : ¬c'.shared.state.stopped) :
    c'.pc? 0 = some .runnerInvoke ∨ ∃ time',
      c'.pc? 0 = some (.runnerWaiting (total + (time - leftOf time remaining)) time') := by
  obtain ⟨-, hlt⟩ := ((periodic_account hnew h).holds hpc).total
  have htime : time < blocking := Nat.lt_of_le_of_lt (Nat.le_add_left time total) hlt
  have hleft : leftOf time remaining ≤ time := by
    rw [leftOf, if_neg (Nat.ne_of_lt htime)]
    exact Nat.min_le_right _ _
  obtain ⟨pc, s, pc', new, hpc₁, hs, rfl⟩ := System.stepAt_cases hn
  rw [hpc] at hpc₁
  cases hpc₁
  rw [Config.pc?_move_self hpc]
  have hstep : periodicStep c.shared 0 (.runnerWaiting total time) remaining = some (s, pc', new) :=
    hs
  obtain ⟨hmove, -⟩ := periodicStep_move hstep
  cases hmove with
  | stopPass pc k hat _ => cases hat
  | stopWait pc k hat _ => cases hat
  | loop pc total' p p' pc' hat hturn =>
    cases hat with
    | waiting total time elapsed _ helapsed =>
      rw [uint64Sub_of_le hleft htime.le] at helapsed
      have hsum : uint64Add total elapsed = total + (time - leftOf time remaining) := by
        rw [helapsed]
        apply uint64Add_of_le
        omega
      rw [← hsum]
      rcases hturn.goes hgoes with rfl | ⟨time', rfl⟩
      · exact .inl rfl
      · exact .inr ⟨time', rfl⟩

theorem periodic_waits
    (hnew : PeriodicJob.new periodicJobFunction period allocated threadError = some pjob) :
    periodicHost.Waits periodicMachine periodicSystem (fun _ _ => True) (periodicInit pjob)
      PeriodicPc.waitedFor? blocking (fun c => c.shared.state.stopped) where
  toRuns := periodic_runs hnew
  awake {c pc} h hpc hnone hgoes := by
    refine .of_isSome (o := 0) hpc trivial (periodicStep_isSome ?_)
    have hinv := runner_invariant (PeriodicJob.state_of_new hnew).1 h
    obtain ⟨q, hq, hrunner⟩ := hinv.runner
    have hat := hinv.position 0 pc hpc
    rw [hpc] at hq
    cases hq
    cases pc with
    | runnerPaused total => exact absurd (.inl hat) hgoes
    | runnerWaiting total time => cases hnone
    | runnerDone => exact absurd (.inr hat) hgoes
    | stopWaiting k => cases hrunner
    | returned res => cases hrunner
    | _ => rfl
  step {c c' o pc pc'} h hpc hn hpc' hgoes := by
    have hinv := runner_invariant (PeriodicJob.state_of_new hnew).1 h
    obtain ⟨q, hq, hrunner⟩ := hinv.runner
    rw [hpc] at hq
    cases hq
    cases hwaited : pc.waitedFor? with
    | some k =>
      obtain ⟨time, rfl⟩ := pc.eq_runnerWaiting hwaited
      rcases wait_adds hnew h hpc hn hgoes with hdue | ⟨time', hwaits⟩
      · rw [hdue] at hpc'
        cases hpc'
        exact .inl rfl
      · rw [hwaits] at hpc'
        cases hpc'
        refine .inr (.inl ⟨_, rfl, ?_⟩)
        rintro k' ⟨⟩
        exact Nat.le_add_right _ _
    | none =>
      obtain ⟨pc₁, s, pc₂, new, hpc₁, hs, rfl⟩ := System.stepAt_cases hn
      rw [hpc] at hpc₁
      cases hpc₁
      rw [Config.pc?_move_self hpc] at hpc'
      cases hpc'
      have hmove : PeriodicMove c.shared 0 o pc s pc' := (periodicStep_move hs).1
      cases hmove with
      | loop pc total p p' pc' hat hturn =>
        rcases hturn.goes hgoes with rfl | ⟨time, rfl⟩
        · exact .inl rfl
        · exact .inr (.inl ⟨total, rfl, nofun⟩)
      | invoke => exact .inr (.inr ⟨rfl, Nat.lt_succ_self 1⟩)
      | ended => exact .inr (.inr ⟨rfl, Nat.zero_lt_one⟩)
      | stopPass pc k hat _ => cases hat <;> cases hrunner
      | stopWait pc k hat _ => cases hat <;> cases hrunner
      | _ => cases hrunner
  bound {c pc k} h hpc hwaited := by
    obtain ⟨time, rfl⟩ := pc.eq_runnerWaiting hwaited
    obtain ⟨-, hlt⟩ := ((periodic_account hnew h).holds hpc).total
    exact ((Nat.le_add_right k time).trans_lt hlt).le

/-- In every fair run of the threads on a periodic job in which time passes, the function is
    called again, from any moment on, unless the job comes to be paused or shut down. -/
theorem periodic_job_is_called_again
    (hnew : PeriodicJob.new periodicJobFunction period allocated threadError = some pjob)
    (r : PeriodicJobRun pjob) (htime : TimePasses r) (n : ℕ) :
    ∃ m, n ≤ m ∧ ((r.config n).shared.invocations < (r.config m).shared.invocations ∨
      (r.config m).shared.state.stopped) := by
  refine (periodic_waits hnew).calls_again r (fun n hwaits => ?_) n
  have hwaiting : ∀ m, n ≤ m →
      ∃ total time, (r.config m).pc? 0 = some (.runnerWaiting total time) := by
    intro m hnm
    obtain ⟨⟨pc, k, hpc, hwaited, -⟩, -⟩ := hwaits m hnm
    obtain ⟨time, rfl⟩ := pc.eq_runnerWaiting hwaited
    exact ⟨k, time, hpc⟩
  obtain ⟨m, hnm, total, time, remaining, hpc, hact, hlt⟩ := htime n hwaiting
  refine ⟨m, hnm, ?_⟩
  rintro k ⟨pc, k', hpc', hwaited, hle⟩
  rw [hpc] at hpc'
  cases hpc'
  cases hwaited
  obtain ⟨total', time', hpc'⟩ := hwaiting (m + 1) (hnm.trans (Nat.le_succ m))
  have hgoes := (hwaits (m + 1) (hnm.trans (Nat.le_succ m))).2
  rcases wait_adds hnew (r.reach m) hpc (r.move hact).2 hgoes with hdue | ⟨time'', hadds⟩
  · rw [hpc'] at hdue
    cases hdue
  · exact ⟨_, _, hadds, rfl, by omega⟩

end

/-- The job waits for its whole period, with nothing pending. -/
def AwaitsPeriod (c : PeriodicConfig) : Prop :=
  ∃ log, c = ⟨⟨{0}, .waiting, tenMicroseconds.periodInMicroseconds, .zero, ∅, log⟩,
    [.runnerWaiting 0 (uint64Sub 10 0), .returned (.sent .resume true)]⟩

/-- The job is resumed, and its function called after each period from then on. -/
theorem awaitsPeriod_loops :
    System.Loops periodicSystem (fun _ _ => True) (periodicInit tenMicroseconds)
      [.step 0 0, .call (.send .resume) 0, .step 1 0, .step 0 0, .step 0 0, .step 0 0, .step 0 0]
      [.wake 0, .step 0 0, .step 0 0, .step 0 0, .step 0 0] AwaitsPeriod where
  nonempty := List.cons_ne_nil _ _
  enter := ⟨_, rfl, _, rfl⟩
  turn := by
    rintro _ ⟨log, rfl⟩
    exact ⟨_, rfl, _, rfl⟩
  serves t := by
    right
    rintro _ ⟨log, rfl⟩
    refine System.not_canStep PeriodicJob.rests periodicStep_eq_none ?_ t
    intro u hu pc hpc
    match u, hu with
    | 0, _ => cases hpc; rfl
    | 1, _ => cases hpc; rfl

/-- The function is called after each period, for ever. -/
def periodRun : PeriodicJobRun tenMicroseconds := .ofLoop awaitsPeriod_loops

theorem timePasses_periodRun : TimePasses periodRun := by
  intro n _
  refine ⟨_, (awaitsPeriod_loops.le_turnAt n).trans (Nat.le_succ _), 0, uint64Sub 10 0, 0, ?_,
    System.FairRun.ofLoop_act awaitsPeriod_loops (i := 1) (by decide) n, by decide⟩
  obtain ⟨log, hlog⟩ := System.FairRun.ofLoop_head awaitsPeriod_loops n
  have hwoken := System.FairRun.ofLoop_within awaitsPeriod_loops (i := 1) (by decide) n
  rw [hlog] at hwoken
  rw [periodRun, ← Option.some.inj hwoken]
  rfl

theorem not_stopped_periodRun {n : ℕ} (hn : 7 ≤ n) :
    ¬(periodRun.config n).shared.state.stopped := by
  have hgoes : (periodRun.config n).shared.state = .waiting ∨
      (periodRun.config n).shared.state = .running := by
    refine System.FairRun.ofLoop_forall (P := fun c => c.shared.state = .waiting ∨
      c.shared.state = .running) awaitsPeriod_loops ?_ hn
    rintro _ ⟨log, rfl⟩ i hi c' hc'
    match i, hi with
    | 0, _ => cases hc'; exact .inl rfl
    | 1, _ => cases hc'; exact .inl rfl
    | 2, _ => cases hc'; exact .inr rfl
    | 3, _ => cases hc'; exact .inr rfl
    | 4, _ => cases hc'; exact .inr rfl
  rintro (hstate | hstate)
  · rcases hgoes with h | h <;> cases hstate.symm.trans h
  · rcases hgoes with h | h <;> cases hstate.symm.trans h

theorem periodic_job_is_called_again_periodRun :
    TimePasses periodRun ∧ ∀ n, 7 ≤ n → ∃ m, n ≤ m ∧
      (periodRun.config n).shared.invocations < (periodRun.config m).shared.invocations := by
  refine ⟨timePasses_periodRun, fun n hn => ?_⟩
  obtain ⟨m, hnm, hcalled | hstopped⟩ :=
    periodic_job_is_called_again (Option.some_get _).symm periodRun timePasses_periodRun n
  · exact ⟨m, hnm, hcalled⟩
  · exact absurd hstopped (not_stopped_periodRun (hn.trans hnm))

end BoomPar
