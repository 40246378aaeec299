-- SUMMARY: Whether a periodic job is quiescent once a pause and a wait for it have returned.
import BoomPar.PeriodicThreads

/-!
# Quiescence after a pause

A pause that finds the job paused is refused, and a wait then returns at once.
Both look at the state only, which an accepted resume or single shot changes
when the runner consumes it.
-/

namespace BoomPar

open Monitor

/-- The job is paused, but its runner is to consume a resume or a single shot. -/
def RunPending (pjob : PeriodicJob) : Prop :=
  pjob.state = .paused ∧
    (pjob.eventVector.resumeCalled = true ∨ pjob.eventVector.singleShotCalled = true)

/-- The job is shut down, or its runner is to consume a shutdown. -/
def Stopping (pjob : PeriodicJob) : Prop :=
  pjob.state = .shutdown ∨ pjob.eventVector.shutdownCalled = true

instance : DecidablePred RunPending := fun _ => inferInstanceAs (Decidable (_ ∧ _))

instance : DecidablePred Stopping := fun _ => inferInstanceAs (Decidable (_ ∨ _))

namespace PeriodicJobControl

/-- The event makes a paused job run. -/
def runs : PeriodicJobControl → Bool
  | .resume => true
  | .singleShot => true
  | .pause => false
  | .shutdown => false

end PeriodicJobControl

namespace PeriodicPc

/-- A call of `resume_periodic_job` or `single_shot_periodic_job` that has begun. -/
def sendsRun : PeriodicPc → Bool
  | .calling (.send e) => e.runs
  | .send e => e.runs
  | _ => false

end PeriodicPc

/-- The job is to be shut down, or no run is pending on the paused job and no call
    under way is to send one. -/
def NoRunAhead (c : PeriodicConfig) : Prop :=
  Stopping c.shared ∨ (¬RunPending c.shared ∧ System.Free PeriodicPc.sendsRun c)

/-- No call of `resume_periodic_job` or `single_shot_periodic_job` begins. -/
def NoResume (_ : PeriodicConfig) : Act PeriodicJobCall ℕ → Prop
  | .call (.send e) _ => e.runs = false
  | _ => True

instance (c : PeriodicConfig) : DecidablePred (NoResume c)
  | .call (.send e) _ => inferInstanceAs (Decidable (e.runs = false))
  | .call (.updatePeriod _) _ => isTrue trivial
  | .call .getPeriod _ => isTrue trivial
  | .call .waitForPauseOrShutdown _ => isTrue trivial
  | .call .waitForShutdown _ => isTrue trivial
  | .call .delete _ => isTrue trivial
  | .step _ _ => isTrue trivial
  | .wake _ => isTrue trivial

/-- Whenever a wait that began later has returned, and no resume or single shot was
    called, the function of the job is not running. -/
def QuiescentAfterWait (c₁ : PeriodicConfig) : Prop :=
  ∀ c₂ w, periodicSystem.Reach NoResume c₁ c₂ → c₁.threads.length ≤ w →
    c₂.pc? w = some (.returned (.stopped .pauseOrShutdown)) →
    ∀ t, c₂.pc? t ≠ some .runnerInvoking

/-! ## One move -/

theorem not_runPending_of_zero {pjob : PeriodicJob} (h : pjob.eventVector = .zero) :
    ¬RunPending pjob := by
  rintro ⟨-, hrun⟩
  rw [h] at hrun
  obtain hresume | hshot := hrun
  · cases hresume
  · cases hshot

theorem PeriodicMove.stopping {pjob p' : PeriodicJob} {t remaining : ℕ} {pc pc' : PeriodicPc}
    (h : PeriodicMove pjob t remaining pc p' pc') (hp : Stopping pjob) : Stopping p' := by
  obtain ⟨p, total, hstate, hevents, hstate', -⟩ | ⟨hstate, hevents⟩ := h.events
  · left
    rw [hstate', PeriodicJob.nextState]
    obtain hshutdown | hcalled := hp
    · rw [hstate, hshutdown]
    · rw [hevents, hcalled]
      cases p.state <;> rfl
  · obtain hshutdown | hcalled := hp
    · exact .inl (hstate.trans hshutdown)
    · right
      obtain hevents | ⟨e, -, hevents⟩ := hevents
      · rw [hevents, hcalled]
      · rw [hevents]
        cases e with
        | shutdown => rfl
        | _ => exact hcalled

/-- Only a resume or a single shot makes a run pending. -/
theorem PeriodicMove.runPending {pjob p' : PeriodicJob} {t remaining : ℕ} {pc pc' : PeriodicPc}
    (h : PeriodicMove pjob t remaining pc p' pc') (hpc : pc.sendsRun = false)
    (hp : ¬RunPending pjob) : ¬RunPending p' := by
  obtain ⟨p, total, -, -, -, hzero⟩ | ⟨hstate, hevents⟩ := h.events
  · exact not_runPending_of_zero hzero
  · rw [RunPending, hstate]
    obtain hevents | ⟨e, he, hevents⟩ := hevents
    · rw [hevents]
      exact hp
    · rw [hevents]
      cases pc with
      | send e' =>
        cases he
        cases e with
        | resume => cases hpc
        | singleShot => cases hpc
        | _ => exact hp
      | delete => cases he; exact hp
      | _ => cases he

/-- The runner leaves a stopped job in its state, or shuts it down. -/
theorem PeriodicJob.nextState_stopped {pjob : PeriodicJob}
    (hstopped : StopWaiter.pauseOrShutdown.stopped pjob.state = true)
    (hrun : Stopping pjob ∨ ¬RunPending pjob) (total : ℕ) :
    StopWaiter.pauseOrShutdown.stopped (pjob.nextState total) = true := by
  cases hstate : pjob.state with
  | shutdown => simp only [nextState, hstate]; rfl
  | paused =>
    simp only [nextState, hstate]
    obtain (hshutdown | hcalled) | hquiet := hrun
    · rw [hstate] at hshutdown
      cases hshutdown
    · rw [hcalled]
      rfl
    · have hresume : pjob.eventVector.resumeCalled = false :=
        Bool.eq_false_iff.mpr fun hr => hquiet ⟨hstate, .inl hr⟩
      have hshot : pjob.eventVector.singleShotCalled = false :=
        Bool.eq_false_iff.mpr fun hs => hquiet ⟨hstate, .inr hs⟩
      rw [hresume, hshot]
      cases pjob.eventVector.shutdownCalled <;> rfl
  | _ =>
    rw [hstate] at hstopped
    cases hstopped

theorem PeriodicMove.stopped {pjob p' : PeriodicJob} {t remaining : ℕ} {pc pc' : PeriodicPc}
    (h : PeriodicMove pjob t remaining pc p' pc') (hrun : Stopping pjob ∨ ¬RunPending pjob)
    (hstopped : StopWaiter.pauseOrShutdown.stopped pjob.state = true) :
    StopWaiter.pauseOrShutdown.stopped p'.state = true := by
  obtain ⟨p, total, hstate, hevents, hstate', -⟩ | ⟨hstate, -⟩ := h.events
  · rw [hstate']
    refine PeriodicJob.nextState_stopped (hstate ▸ hstopped) ?_ total
    rw [Stopping, RunPending, hstate, hevents]
    exact hrun
  · rw [hstate]
    exact hstopped

theorem PeriodicMove.returnedStopped {pjob p' : PeriodicJob} {t remaining : ℕ} {pc : PeriodicPc}
    {k : StopWaiter} (h : PeriodicMove pjob t remaining pc p' (.returned (.stopped k))) :
    k.stopped pjob.state = true ∧ p' = pjob := by
  generalize hpc' : PeriodicPc.returned (.stopped k) = pc' at h
  cases h with
  | loop pc total p p' pc' hat hturn => cases hturn <;> cases hpc'
  | call k => cases k <;> cases hpc'
  | stopPass pc k hat hstopped => cases hpc'; exact ⟨hstopped, rfl⟩
  | _ => cases hpc'

theorem PeriodicMove.sendsRun {pjob p' : PeriodicJob} {t remaining : ℕ} {pc pc' : PeriodicPc}
    (h : PeriodicMove pjob t remaining pc p' pc') (hpc : pc.sendsRun = false) :
    pc'.sendsRun = false := by
  cases h with
  | loop pc total p p' pc' hat hturn => cases hturn <;> rfl
  | call k =>
    cases k with
    | send e => exact hpc
    | _ => rfl
  | _ => rfl

/-! ## Runs without a resume -/

variable {c c' : PeriodicConfig} {a : Act PeriodicJobCall ℕ}

/-- Without a resume, no thread that moves sends one. -/
theorem NoResume.moves {t o : ℕ} {pc : PeriodicPc} (hok : NoResume c a)
    (hfree : System.Free PeriodicPc.sendsRun c) (h : periodicSystem.Moves c a t pc o) :
    pc.sendsRun = false := by
  obtain ⟨-, hpc⟩ | ⟨k, rfl, rfl⟩ := h
  · exact hfree t pc hpc
  · cases k with
    | send e => exact hok
    | _ => rfl

theorem NoRunAhead.next (hc : NoRunAhead c) (hok : NoResume c a)
    (h : periodicSystem.next c a = some c') : NoRunAhead c' := by
  obtain hstopping | ⟨hquiet, hfree⟩ := hc
  · left
    refine System.next_stable (R := Stopping) h ?_ ?_ hstopping
    · exact fun hs => (periodicStep_move hs).1.stopping
    · intro s t pc s' hs
      obtain ⟨_, _, rfl⟩ := periodicWake_frame hs
      exact id
  · right
    constructor
    · refine System.Moves.stable (R := fun pjob => ¬RunPending pjob) h ?_ ?_ hquiet
      · exact fun hm hs => (periodicStep_move hs).1.runPending (hok.moves hfree hm)
      · intro t pc s' hs
        obtain ⟨_, _, rfl⟩ := periodicWake_frame hs
        exact id
    · refine hfree.next_of_moves h fun hm hs => ?_
      obtain ⟨hmove, rfl⟩ := periodicStep_move hs
      exact ⟨hmove.sendsRun (hok.moves hfree hm), fun q hq => absurd hq List.not_mem_nil⟩

/-- What holds after a pause until the next resume: no run is ahead, and the job is
    stopped once thread `w` has returned from its wait. -/
structure Pausing (w : ℕ) (c : PeriodicConfig) : Prop where
  runner : RunnerInv c
  ahead : NoRunAhead c
  stopped : c.pc? w = some (.returned (.stopped .pauseOrShutdown)) →
    StopWaiter.pauseOrShutdown.stopped c.shared.state = true

theorem Pausing.next {w : ℕ} (hc : Pausing w c) (hok : NoResume c a)
    (h : periodicSystem.next c a = some c') : Pausing w c' where
  runner := hc.runner.next h
  ahead := hc.ahead.next hok h
  stopped := by
    intro hw
    by_cases hold : c.pc? w = some (.returned (.stopped .pauseOrShutdown))
    · refine System.Moves.stable
        (R := fun pjob => StopWaiter.pauseOrShutdown.stopped pjob.state = true) h ?_ ?_
        (hc.stopped hold)
      · exact fun _ hs => (periodicStep_move hs).1.stopped (hc.ahead.imp_right And.left)
      · intro t pc s' hs
        obtain ⟨_, _, rfl⟩ := periodicWake_frame hs
        exact id
    · obtain ⟨pc, o, new, -, hs⟩ := System.next_moved_of_notMem h hw hold fun hs => by
        rw [(periodicStep_move hs).2]
        exact List.not_mem_nil
      obtain ⟨hmove, -⟩ := periodicStep_move hs
      obtain ⟨hstopped, hshared⟩ := hmove.returnedStopped
      rw [hshared]
      exact hstopped

theorem Pausing.not_invoking {w t : ℕ} (hc : Pausing w c)
    (hw : c.pc? w = some (.returned (.stopped .pauseOrShutdown))) :
    c.pc? t ≠ some .runnerInvoking := by
  intro ht
  have hruns : c.shared.state.runs = true := hc.runner.position t _ ht
  have hstopped := hc.stopped hw
  cases hstate : c.shared.state with
  | paused => rw [hstate] at hruns; cases hruns
  | shutdown => rw [hstate] at hruns; cases hruns
  | _ => rw [hstate] at hstopped; cases hstopped

/-! ## What the environment can bring about -/

theorem returned_reach {ok : PeriodicConfig → Act PeriodicJobCall ℕ → Prop} {t : ℕ}
    {r : PeriodicJobResult} (h : periodicSystem.Reach ok c c')
    (hc : c.pc? t = some (.returned r)) : c'.pc? t = some (.returned r) := by
  refine h.invariant (P := fun c => c.pc? t = some (.returned r)) hc ?_
  intro c a c' _ hc _ hn
  have hstuck : ∀ s o, periodicSystem.step s t (.returned r) o = none := fun _ _ => rfl
  exact System.next_pc?_of_stuck hn hstuck hc

/-- A run without a resume in which only the runner and later calls take steps. -/
structure Ahead (c c' : PeriodicConfig) : Prop where
  reach : periodicSystem.Reach NoResume c c'
  kept : ∀ u pc, u ≠ 0 → c.pc? u = some pc → c'.pc? u = some pc

theorem Ahead.refl (c : PeriodicConfig) : Ahead c c := ⟨.refl, fun _ _ _ hpc => hpc⟩

theorem Ahead.trans {c₁ c₂ c₃ : PeriodicConfig} (h : Ahead c₁ c₂) (h' : Ahead c₂ c₃) :
    Ahead c₁ c₃ where
  reach := h.reach.trans h'.reach
  kept u pc hu hpc := h'.kept u pc hu (h.kept u pc hu hpc)

theorem reach_step {t o : ℕ} {pc pc' : PeriodicPc} {p : PeriodicJob}
    (hpc : c.pc? t = some pc) (h : periodicStep c.shared t pc o = some (p, pc', [])) :
    periodicSystem.Reach NoResume c (c.move t p pc' []) :=
  System.Reach.refl.tail (a := .step t o) trivial (System.next_step hpc h)

/-- The runner takes a step. -/
theorem Ahead.step {o : ℕ} {pc pc' : PeriodicPc} {p : PeriodicJob} (hpc : c.pc? 0 = some pc)
    (h : periodicStep c.shared 0 pc o = some (p, pc', [])) : Ahead c (c.move 0 p pc' []) where
  reach := reach_step hpc h
  kept _ _ hu hq := Config.pc?_move_of_ne hu hq _ _ _

/-- The runner wakes, blocked or not. -/
theorem Ahead.wake {pc : PeriodicPc} {p : PeriodicJob} (hpc : c.pc? 0 = some pc)
    (h : periodicWake c.shared 0 pc = some p) : Ahead c { c with shared := p } where
  reach := System.Reach.refl.tail (a := .wake 0) trivial (System.next_wake hpc h)
  kept _ _ _ hq := hq

/-- A client makes a call and takes the section that it enters first. -/
theorem Ahead.call {k : PeriodicJobCall} {o : ℕ} {p : PeriodicJob} {pc' : PeriodicPc}
    (hok : NoResume c (.call k o))
    (h : periodicStep c.shared c.threads.length k.start o = some (p, pc', [])) :
    ∃ c', Ahead c c' ∧ c'.shared = p ∧ c'.pc? c.threads.length = some pc' := by
  have hpc := Config.pc?_push_self c (.calling k)
  have hcalled := Config.pc?_move_self hpc c.shared k.start []
  have hbegin : periodicSystem.next c (.call k o) =
      some ((c.push (.calling k)).move c.threads.length c.shared k.start []) :=
    System.next_step hpc rfl
  refine ⟨_, ⟨(System.Reach.refl.tail hok hbegin).trans (reach_step hcalled h), ?_⟩, rfl,
    Config.pc?_move_self hcalled _ _ _⟩
  intro u q _ hq
  have hne : u ≠ c.threads.length := (Config.pc?_lt hq).ne
  exact Config.pc?_move_of_ne hne (Config.pc?_move_of_ne hne (Config.pc?_push_of_pc? hq) _ _ _)
    _ _ _

/-- The runner consumes the events. -/
theorem runner_turns (hc : RunnerInv c) (hgoes : c.shared.state ≠ .shutdown) :
    ∃ c' p total pc', Ahead c c' ∧ PeriodicJob.state p = c.shared.state ∧
      p.eventVector = c.shared.eventVector ∧ LoopTurn p 0 total c'.shared pc' ∧
      c'.pc? 0 = some pc' := by
  have hloop : ∀ {c₁ : PeriodicConfig} {pc : PeriodicPc} {p : PeriodicJob} {total : ℕ},
      Ahead c c₁ → c₁.pc? 0 = some pc → LoopAt c₁.shared 0 0 pc total p →
      c₁.shared.state = c.shared.state → c₁.shared.eventVector = c.shared.eventVector →
      ∃ c' p total pc', Ahead c c' ∧ PeriodicJob.state p = c.shared.state ∧
        p.eventVector = c.shared.eventVector ∧ LoopTurn p 0 total c'.shared pc' ∧
        c'.pc? 0 = some pc' := by
    intro c₁ pc p total hahead hpc hat hstate hevents
    exact ⟨_, p, total, _, hahead.trans (.step hpc hat.step), hat.events.1.trans hstate,
      hat.events.2.trans hevents, runnerLoop_turn p 0 total, Config.pc?_move_self hpc _ _ _⟩
  obtain ⟨pc, hpc, hrunner⟩ := hc.runner
  have hat := hc.position 0 pc hpc
  cases pc with
  | runnerTop => exact hloop (.refl c) hpc .top rfl rfl
  | runnerPaused total =>
    exact hloop (.wake hpc rfl) hpc (.paused total (Finset.notMem_erase 0 _)) rfl rfl
  | runnerWaiting total time =>
    exact hloop (.wake hpc rfl) hpc (.waiting total time _ (Finset.notMem_erase 0 _) rfl) rfl rfl
  | runnerInvoke =>
    have hinvoking := Config.pc?_move_self hpc (c.shared.record .invoked) .runnerInvoking []
    have hahead := (Ahead.step (o := 0) hpc rfl).trans (.step (o := 0) hinvoking rfl)
    exact hloop hahead (Config.pc?_move_self hinvoking _ _ _) .top rfl rfl
  | runnerInvoking =>
    exact hloop (.step (o := 0) hpc rfl) (Config.pc?_move_self hpc _ _ _) .top rfl rfl
  | runnerDone => exact absurd hat hgoes
  | _ => cases hrunner

theorem not_stopping_of_zero {pjob : PeriodicJob} (h : pjob.eventVector = .zero)
    (hgoes : pjob.state ≠ .shutdown) : ¬Stopping pjob := by
  rintro (hshutdown | hcalled)
  · exact hgoes hshutdown
  · rw [h] at hcalled
    cases hcalled

/-- A pause that is accepted pauses the job, unless it is to be shut down. -/
theorem pauses (hc : RunnerInv c) (hgoes : ¬Stopping c.shared)
    (hstate : c.shared.state = .running ∨ c.shared.state = .waiting ∨
      c.shared.state = .singleShotOnWaiting) :
    ∃ c', Ahead c c' ∧ c'.shared.state = .paused ∧ ¬Stopping c'.shared := by
  obtain ⟨c₁, hcall, hshared, -⟩ := Ahead.call (c := c) (k := .send .pause) (o := 0) rfl rfl
  have haccepted : (c.shared.control .pause).2 = true := by
    refine (PeriodicJob.send_res _ _ _).trans ?_
    obtain hs | hs | hs := hstate <;> rw [hs] <;> rfl
  have hpaused := PeriodicJob.control_accepted haccepted
  rw [← hshared] at hpaused
  have hgoes₁ : c₁.shared.state ≠ .shutdown := hpaused.1 ▸ fun hs => hgoes (.inl hs)
  obtain ⟨c', p, total, pc', hturn, hp, hevents, hloop, -⟩ :=
    runner_turns (hc.reach hcall.reach) hgoes₁
  have hshutdown : c.shared.eventVector.shutdownCalled = false :=
    Bool.eq_false_iff.mpr fun hs => hgoes (.inr hs)
  have hstate' : c'.shared.state = .paused := by
    rw [hloop.events.1, PeriodicJob.nextState, hp, hevents, hpaused.1, hpaused.2]
    obtain hs | hs | hs := hstate <;>
      simp only [hs, EventVector.set, hshutdown, Bool.false_eq_true, if_false, if_true]
  refine ⟨c', hcall.trans hturn, hstate', not_stopping_of_zero hloop.events.2 ?_⟩
  rw [hstate']
  exact nofun

/-- A job that is not to be shut down can be paused. -/
theorem reaches_paused (hc : RunnerInv c) (hgoes : ¬Stopping c.shared) :
    ∃ c', Ahead c c' ∧ c'.shared.state = .paused ∧ ¬Stopping c'.shared := by
  cases hstate : c.shared.state with
  | paused => exact ⟨c, .refl c, hstate, hgoes⟩
  | shutdown => exact absurd (.inl hstate) hgoes
  | running => exact pauses hc hgoes (.inl hstate)
  | waiting => exact pauses hc hgoes (.inr (.inl hstate))
  | singleShotOnWaiting => exact pauses hc hgoes (.inr (.inr hstate))
  | singleShotOnPaused =>
    -- a pause is refused until the runner has come back from the single shot
    obtain ⟨c₁, p, total, pc', hturn, hp, hevents, hloop, -⟩ :=
      runner_turns hc fun hs => hgoes (.inl hs)
    have hstate₁ := hloop.events.1
    have hshutdown : c.shared.eventVector.shutdownCalled = false :=
      Bool.eq_false_iff.mpr fun hs => hgoes (.inr hs)
    simp only [PeriodicJob.nextState, hp, hevents, hstate, hshutdown, Bool.false_eq_true,
      if_false] at hstate₁
    have hgoes₁ : ¬Stopping c₁.shared := by
      refine not_stopping_of_zero hloop.events.2 ?_
      rw [hstate₁]
      split <;> exact nofun
    split at hstate₁
    · obtain ⟨c', hpause, hpaused⟩ := pauses (hc.reach hturn.reach) hgoes₁ (.inr (.inl hstate₁))
      exact ⟨c', hturn.trans hpause, hpaused⟩
    · exact ⟨c₁, hturn, hstate₁, hgoes₁⟩

/-- A call under way makes a run pending on the paused job. -/
theorem sender_sends {u : ℕ} {pc : PeriodicPc} (hpc : c.pc? u = some pc)
    (hsends : pc.sendsRun = true) (hpaused : c.shared.state = .paused)
    (hgoes : ¬Stopping c.shared) :
    ∃ c', periodicSystem.Reach NoResume c c' ∧ RunPending c'.shared ∧ ¬Stopping c'.shared := by
  have hsend : ∀ {c₁ : PeriodicConfig} {e : PeriodicJobControl}, c₁.pc? u = some (.send e) →
      e.runs = true → c₁.shared = c.shared →
      ∃ c', periodicSystem.Reach NoResume c₁ c' ∧ RunPending c'.shared ∧ ¬Stopping c'.shared := by
    intro c₁ e hpc₁ he hshared
    refine ⟨_, reach_step (o := 0) hpc₁ rfl, ?_⟩
    rw [Config.move_shared, hshared]
    have haccepted : (c.shared.control e).2 = true := by
      cases e with
      | resume => exact (PeriodicJob.send_res _ _ _).trans (by rw [hpaused]; rfl)
      | singleShot => exact (PeriodicJob.send_res _ _ _).trans (by rw [hpaused]; rfl)
      | _ => cases he
    obtain ⟨hstate, hevents⟩ := PeriodicJob.control_accepted haccepted
    rw [RunPending, Stopping, hstate, hevents]
    cases e with
    | resume => exact ⟨⟨hpaused, .inl rfl⟩, hgoes⟩
    | singleShot => exact ⟨⟨hpaused, .inr rfl⟩, hgoes⟩
    | _ => cases he
  cases pc with
  | calling k =>
    cases k with
    | send e =>
      have hcalled := Config.pc?_move_self hpc c.shared (.send e) []
      obtain ⟨c', hreach, hpending⟩ := hsend hcalled hsends rfl
      exact ⟨c', (reach_step (o := 0) hpc rfl).trans hreach, hpending⟩
    | _ => cases hsends
  | send e => exact hsend hpc hsends rfl
  | _ => cases hsends

/-- The runner of a job with a run pending comes to call the function of the job. -/
theorem runner_invokes (hc : RunnerInv c) (hrun : RunPending c.shared)
    (hgoes : ¬Stopping c.shared) :
    ∃ c', periodicSystem.Reach NoResume c c' ∧ c'.pc? 0 = some .runnerInvoking := by
  obtain ⟨c₁, p, total, pc', hturn, hp, hevents, hloop, hpc⟩ :=
    runner_turns hc fun hs => hgoes (.inl hs)
  have hshutdown : c.shared.eventVector.shutdownCalled = false :=
    Bool.eq_false_iff.mpr fun hs => hgoes (.inr hs)
  have hruns : c₁.shared.state.runs = true := by
    rw [hloop.events.1, PeriodicJob.nextState, hp, hevents, hrun.1, hshutdown]
    obtain hresume | hshot := hrun.2
    · rw [hresume]
      rfl
    · rw [hshot]
      cases c.shared.eventVector.resumeCalled <;> rfl
  have hinvoke : pc' = .runnerInvoke := by
    generalize c₁.shared = p' at hloop hruns
    cases hloop with
    | shutdown p _ hs => rw [hs] at hruns; cases hruns
    | paused p _ hs => rw [hs] at hruns; cases hruns
    | waiting p time _ hs _ => rw [hs] at hruns; cases hruns
    | run p _ _ => rfl
  subst hinvoke
  exact ⟨_, hturn.reach.trans (reach_step (o := 0) hpc rfl), Config.pc?_move_self hpc _ _ _⟩

/-- On a job that is not to be shut down, a run that is ahead starts after a wait
    has returned. -/
theorem not_quiescent (hc : RunnerInv c) (hahead : ¬NoRunAhead c) : ¬QuiescentAfterWait c := by
  obtain ⟨hgoes, hrun⟩ := not_or.mp hahead
  intro hquiet
  -- a wait returns on the paused job, and what comes after it leads to a run
  have hwaits : ∀ {c₁ : PeriodicConfig}, Ahead c c₁ → c₁.shared.state = .paused →
      (∀ {c₂ : PeriodicConfig}, Ahead c₁ c₂ → c₂.shared = c₁.shared →
        ∃ c', periodicSystem.Reach NoResume c₂ c' ∧ RunPending c'.shared ∧
          ¬Stopping c'.shared) → False := by
    intro c₁ hahead₁ hpaused hpends
    have hstep : periodicStep c₁.shared c₁.threads.length (.stopTest .pauseOrShutdown) 0 =
        some (c₁.shared, .returned (.stopped .pauseOrShutdown), []) := by
      simp only [periodicStep, PeriodicJob.awaitStop, hpaused]
      rfl
    obtain ⟨c₂, hwait, hshared, hw⟩ :=
      Ahead.call (c := c₁) (k := .waitForPauseOrShutdown) (o := 0) trivial hstep
    obtain ⟨c₃, hsent, hpending, hgoes₃⟩ := hpends hwait hshared
    have hreach₃ := (hahead₁.trans hwait).reach.trans hsent
    obtain ⟨c₄, hinvokes, hinvoking⟩ := runner_invokes (hc.reach hreach₃) hpending hgoes₃
    have hreturned := returned_reach (hsent.trans hinvokes) hw
    exact hquiet c₄ _ (hreach₃.trans hinvokes) (hahead₁.reach.length_le) hreturned 0 hinvoking
  by_cases hpending : RunPending c.shared
  · exact hwaits (.refl c) hpending.1 fun _ hshared =>
      ⟨_, .refl, by rw [hshared]; exact hpending, by rw [hshared]; exact hgoes⟩
  · have hsender : ∃ u pc, c.pc? u = some pc ∧ pc.sendsRun = true := by
      have hfree := not_and.mp hrun hpending
      simpa [System.Free] using hfree
    obtain ⟨u, pc, hpc, hsends⟩ := hsender
    have hu : u ≠ 0 := by
      rintro rfl
      obtain ⟨pc', hpc', hrunner⟩ := hc.runner
      rw [hpc] at hpc'
      cases hpc'
      cases pc with
      | calling k => cases hrunner
      | send e => cases hrunner
      | _ => cases hsends
    obtain ⟨c₁, hahead₁, hpaused, hgoes₁⟩ := reaches_paused hc hgoes
    refine hwaits hahead₁ hpaused fun hwait hshared => ?_
    rw [← hshared] at hpaused hgoes₁
    exact sender_sends (hwait.kept u pc hu (hahead₁.kept u pc hu hpc)) hsends hpaused hgoes₁

/-! ## The pause -/

/-- A pause changes nothing of what is ahead. -/
theorem next_pause {t o : ℕ} (ht : c.pc? t = some (.send .pause))
    (h : periodicSystem.next c (.step t o) = some c') : NoRunAhead c' ↔ NoRunAhead c := by
  have hmoved := System.next_step (S := periodicSystem) (o := o) ht rfl
  obtain rfl := Option.some.inj (hmoved.symm.trans h)
  obtain ⟨v, cv, log, hframe, hv, -⟩ := c.shared.control_frame .pause
  have hfree : System.Free PeriodicPc.sendsRun
      (c.move t (c.shared.control .pause).1
        (.returned (.sent .pause (c.shared.control .pause).2)) []) ↔
      System.Free PeriodicPc.sendsRun c := by
    constructor
    · intro hfree u q hq
      by_cases hu : u = t
      · subst hu
        rw [ht] at hq
        cases hq
        rfl
      · exact hfree u q (Config.pc?_move_of_ne hu hq _ _ _)
    · intro hfree u q hq
      obtain ⟨-, rfl⟩ | ⟨-, hold⟩ | ⟨-, hmem⟩ := Config.pc?_move_cases hq
      · rfl
      · exact hfree u q hold
      · cases hmem
  refine or_congr ?_ (and_congr ?_ hfree)
  · rw [Config.move_shared, hframe]
    obtain rfl | rfl := hv
    · exact Iff.rfl
    · exact Iff.rfl
  · rw [Config.move_shared, hframe]
    obtain rfl | rfl := hv
    · exact Iff.rfl
    · exact Iff.rfl

/-- After a pause the function of the job does not run once a wait has returned,
    exactly if no run was ahead when the pause came to its section. -/
theorem quiescent_after_pause_iff {periodicJobFunction : Ptr} {n : ℕ}
    {allocated threadError : Bool} {pjob : PeriodicJob}
    (hnew : PeriodicJob.new periodicJobFunction n allocated threadError = some pjob)
    {t o : ℕ} (h : PeriodicReach pjob c) (ht : c.pc? t = some (.send .pause))
    (hpause : periodicSystem.next c (.step t o) = some c') :
    QuiescentAfterWait c' ↔ NoRunAhead c := by
  have hpaused := (PeriodicJob.state_of_new hnew).1
  have hrunner : RunnerInv c' := (runner_invariant hpaused h).next hpause
  rw [← next_pause ht hpause]
  constructor
  · intro hquiet
    by_contra hahead
    exact not_quiescent hrunner hahead hquiet
  · intro hahead c₂ w hreach hw hreturned t
    have hpausing : Pausing w c₂ := by
      refine hreach.invariant ⟨hrunner, hahead, ?_⟩ fun _ _ _ _ hc hok hn => hc.next hok hn
      intro hold
      have := Config.pc?_lt hold
      omega
    exact hpausing.not_invoking hreturned

/-- A job with a period of ten microseconds. -/
def tenMicroseconds : PeriodicJob := (PeriodicJob.new (some 0) 10 true false).get rfl

/-- The job is resumed, runs, and waits for its period when a pause is called. -/
def waitingJob : PeriodicConfig :=
  periodicSystem.run (periodicInit tenMicroseconds)
    [.step 0 0, .call (.send .resume) 0, .step 1 0, .step 0 0, .step 0 0, .step 0 0, .step 0 0,
      .call (.send .pause) 0] (by decide)

/-- The pause is accepted. -/
def pausedJob : PeriodicConfig := (periodicSystem.next waitingJob (.step 2 0)).get (by decide)

theorem quiescent_after_pause_iff_pausedJob :
    QuiescentAfterWait pausedJob ↔ NoRunAhead waitingJob :=
  quiescent_after_pause_iff (t := 2) (Option.some_get _).symm (.run _ _ _) (by decide)
    (Option.some_get _).symm

/-- A job is resumed, and a pause is called before its runner has consumed the event. -/
def resumedJob : PeriodicConfig :=
  periodicSystem.run (periodicInit tenMicroseconds)
    [.step 0 0, .call (.send .resume) 0, .step 1 0, .call (.send .pause) 0] (by decide)

/-- The pause is refused. -/
def unpausedJob : PeriodicConfig := (periodicSystem.next resumedJob (.step 2 0)).get (by decide)

/-- The function of the job runs after the wait has returned. -/
theorem not_quiescent_after_pause :
    ∃ c c' t o, PeriodicReach tenMicroseconds c ∧ c.pc? t = some (.send .pause) ∧
      periodicSystem.next c (.step t o) = some c' ∧ ¬QuiescentAfterWait c' := by
  refine ⟨resumedJob, unpausedJob, 2, 0, .run _ _ _, by decide, (Option.some_get _).symm, ?_⟩
  intro h
  have hreach := System.Reach.checkedRun (S := periodicSystem) NoResume unpausedJob
    [.call .waitForPauseOrShutdown 0, .step 3 0, .step 0 0, .step 0 0] (by decide)
  exact h _ 3 hreach (by decide) (by decide) 0 (by decide)

end BoomPar
