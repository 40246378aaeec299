-- SUMMARY: What each step of the periodic job's threads can do, said once, and where its runner is in each state.
import BoomPar.PeriodicJob
import BoomPar.Monitor.Rules

/-!
# Threads of the periodic job

The runner alone changes the state, and only by consuming the event vector; the
clients only place events. In each state the runner is at a control state that
fits it.
-/

namespace BoomPar

open Monitor

/-- The states in which the runner calls the function of the job. -/
def PeriodicJobState.runs : PeriodicJobState → Bool
  | .running => true
  | .singleShotOnPaused => true
  | .singleShotOnWaiting => true
  | _ => false

/-- The runner is about to consume the event vector, after `total` microseconds. -/
inductive LoopAt (pjob : PeriodicJob) (t remaining : ℕ) : PeriodicPc → ℕ → PeriodicJob → Prop
  | top : LoopAt pjob t remaining .runnerTop 0 pjob
  | paused (total : ℕ) : t ∉ pjob.jobWait →
      LoopAt pjob t remaining (.runnerPaused total) total pjob
  | waiting (total timeToWaitFor elapsed : ℕ) : t ∉ pjob.jobWait →
      elapsed = uint64Sub timeToWaitFor (leftOf timeToWaitFor remaining) →
      LoopAt pjob t remaining (.runnerWaiting total timeToWaitFor) (uint64Add total elapsed)
        (pjob.record (.elapsed elapsed))

/-- A turn of the runner's inner loop, by the state that it comes to. -/
inductive LoopTurn (pjob : PeriodicJob) (t total : ℕ) : PeriodicJob → PeriodicPc → Prop
  | shutdown (p : PeriodicJob) : p = pjob.consumeEventsAndUpdateState total →
      p.state = .shutdown → LoopTurn pjob t total { p with stopWait := ∅ } .runnerDone
  | paused (p : PeriodicJob) : p = pjob.consumeEventsAndUpdateState total → p.state = .paused →
      LoopTurn pjob t total
        { p with stopWait := ∅, jobWait := p.jobWait.wait t, log := p.log ++ [.blocked none] }
        (.runnerPaused total)
  | waiting (p : PeriodicJob) (time : ℕ) : p = pjob.consumeEventsAndUpdateState total →
      p.state = .waiting → time = uint64Sub p.periodInMicroseconds.microseconds total →
      LoopTurn pjob t total
        { p with jobWait := p.jobWait.wait t, log := p.log ++ [.blocked (some time)] }
        (.runnerWaiting total time)
  | run (p : PeriodicJob) : p = pjob.consumeEventsAndUpdateState total → p.state.runs = true →
      LoopTurn pjob t total p .runnerInvoke

/-- A thread is about to test the wait loop on `stop_wait`. -/
inductive StopAt (pjob : PeriodicJob) (t : ℕ) (k : StopWaiter) : PeriodicPc → Prop
  | call : StopAt pjob t k (.stopTest k)
  | resume : t ∉ pjob.stopWait → StopAt pjob t k (.stopWaiting k)

/-- One case for each branch of each section, guards included. -/
inductive PeriodicMove (pjob : PeriodicJob) (t remaining : ℕ) :
    PeriodicPc → PeriodicJob → PeriodicPc → Prop
  | loop (pc : PeriodicPc) (total : ℕ) (p p' : PeriodicJob) (pc' : PeriodicPc) :
      LoopAt pjob t remaining pc total p → LoopTurn p t total p' pc' →
      PeriodicMove pjob t remaining pc p' pc'
  | invoke : PeriodicMove pjob t remaining .runnerInvoke (pjob.record .invoked) .runnerInvoking
  | ended : PeriodicMove pjob t remaining .runnerInvoking (pjob.record .ended) .runnerTop
  | call (k : PeriodicJobCall) : PeriodicMove pjob t remaining (.calling k) pjob k.start
  | send (e : PeriodicJobControl) (res : Bool) : (pjob.control e).2 = res →
      PeriodicMove pjob t remaining (.send e) (pjob.control e).1 (.returned (.sent e res))
  | updatePeriod (n : ℕ) (res : Bool) : (pjob.updatePeriodForPeriodicJob n).2 = res →
      PeriodicMove pjob t remaining (.updatePeriod n) (pjob.updatePeriodForPeriodicJob n).1
        (.returned (.updatedPeriod res))
  | getPeriod : PeriodicMove pjob t remaining .getPeriod pjob
      (.returned (.period pjob.getPeriodForPeriodicJob))
  | stopPass (pc : PeriodicPc) (k : StopWaiter) : StopAt pjob t k pc →
      k.stopped pjob.state = true →
      PeriodicMove pjob t remaining pc pjob (.returned (.stopped k))
  | stopWait (pc : PeriodicPc) (k : StopWaiter) : StopAt pjob t k pc →
      k.stopped pjob.state = false →
      PeriodicMove pjob t remaining pc { pjob with stopWait := pjob.stopWait.wait t }
        (.stopWaiting k)
  | delete : PeriodicMove pjob t remaining .delete (pjob.control .shutdown).1 (.stopTest .delete)

theorem runnerLoop_turn (pjob : PeriodicJob) (t total : ℕ) :
    LoopTurn pjob t total (pjob.runnerLoop t total).1 (pjob.runnerLoop t total).2 := by
  generalize hp : pjob.consumeEventsAndUpdateState total = p
  simp only [PeriodicJob.runnerLoop, hp]
  split
  · rename_i hstate
    exact .shutdown p hp.symm hstate
  · rename_i hstate
    exact .paused p hp.symm hstate
  · rename_i hstate
    exact .waiting p _ hp.symm hstate rfl
  · rename_i hshutdown hpaused hwaiting
    refine .run p hp.symm ?_
    cases hstate : p.state with
    | shutdown => exact absurd hstate hshutdown
    | paused => exact absurd hstate hpaused
    | waiting => exact absurd hstate hwaiting
    | _ => rfl

theorem LoopAt.step {pjob p : PeriodicJob} {t remaining total : ℕ} {pc : PeriodicPc}
    (h : LoopAt pjob t remaining pc total p) :
    periodicStep pjob t pc remaining = quietly (p.runnerLoop t total) := by
  cases h with
  | top => rfl
  | paused total hwoken => exact if_neg hwoken
  | waiting total time elapsed hwoken helapsed =>
    rw [helapsed]
    exact if_neg hwoken

theorem awaitStop_move {pjob p' : PeriodicJob} {t remaining : ℕ} {pc pc' : PeriodicPc}
    {k : StopWaiter} {new : List PeriodicPc} (hat : StopAt pjob t k pc)
    (h : quietly (pjob.awaitStop t k) = some (p', pc', new)) :
    PeriodicMove pjob t remaining pc p' pc' ∧ new = [] := by
  simp only [quietly, PeriodicJob.awaitStop] at h
  split at h
  · rename_i hstopped
    cases h
    exact ⟨.stopPass pc k hat hstopped, rfl⟩
  · rename_i hgoes
    cases h
    exact ⟨.stopWait pc k hat (Bool.eq_false_iff.mpr hgoes), rfl⟩

theorem periodicStep_move {pjob p' : PeriodicJob} {t remaining : ℕ} {pc pc' : PeriodicPc}
    {new : List PeriodicPc} (h : periodicStep pjob t pc remaining = some (p', pc', new)) :
    PeriodicMove pjob t remaining pc p' pc' ∧ new = [] := by
  cases pc with
  | runnerTop =>
    cases h
    exact ⟨.loop _ _ _ _ _ .top (runnerLoop_turn _ _ _), rfl⟩
  | runnerPaused total =>
    simp only [periodicStep] at h
    split at h
    · cases h
    · rename_i hwoken
      cases h
      exact ⟨.loop _ _ _ _ _ (.paused total hwoken) (runnerLoop_turn _ _ _), rfl⟩
  | runnerWaiting total time =>
    simp only [periodicStep] at h
    split at h
    · cases h
    · rename_i hwoken
      cases h
      exact ⟨.loop _ _ _ _ _ (.waiting total time _ hwoken rfl) (runnerLoop_turn _ _ _), rfl⟩
  | runnerInvoke => cases h; exact ⟨.invoke, rfl⟩
  | runnerInvoking => cases h; exact ⟨.ended, rfl⟩
  | runnerDone => cases h
  | calling k => cases h; exact ⟨.call k, rfl⟩
  | send e => cases h; exact ⟨.send e _ rfl, rfl⟩
  | updatePeriod n => cases h; exact ⟨.updatePeriod n _ rfl, rfl⟩
  | getPeriod => cases h; exact ⟨.getPeriod, rfl⟩
  | stopTest k => exact awaitStop_move .call h
  | stopWaiting k =>
    simp only [periodicStep] at h
    split at h
    · cases h
    · rename_i hwoken
      exact awaitStop_move (.resume hwoken) h
  | delete => cases h; exact ⟨.delete, rfl⟩
  | returned r => cases h

/-! ## What the clients leave alone -/

namespace PeriodicJob

/-- An event only sets its own bit, and wakes the runner. -/
theorem control_frame (pjob : PeriodicJob) (e : PeriodicJobControl) :
    ∃ v cv log, (pjob.control e).1 =
        { pjob with eventVector := v, jobWait := cv, log := log } ∧
      (v = pjob.eventVector ∨ v = pjob.eventVector.set e) ∧ cv ⊆ pjob.jobWait := by
  have hsend : ∀ res, ∃ v cv log, (pjob.send e res).1 =
        { pjob with eventVector := v, jobWait := cv, log := log } ∧
      (v = pjob.eventVector ∨ v = pjob.eventVector.set e) ∧ cv ⊆ pjob.jobWait := by
    intro res
    cases res with
    | false => exact ⟨_, _, _, rfl, .inl rfl, Finset.Subset.rfl⟩
    | true => exact ⟨_, _, _, rfl, .inr rfl, fun u => CondVar.mem_of_mem_signal⟩
  cases e with
  | shutdown => exact hsend _
  | pause => exact hsend _
  | resume => exact hsend _
  | singleShot => exact hsend _

theorem send_res (pjob : PeriodicJob) (e : PeriodicJobControl) (res : Bool) :
    (pjob.send e res).2 = res := by
  cases res <;> rfl

/-- An accepted event is placed in the event vector. -/
theorem control_accepted {pjob : PeriodicJob} {e : PeriodicJobControl}
    (h : (pjob.control e).2 = true) :
    (pjob.control e).1.state = pjob.state ∧
      (pjob.control e).1.eventVector = pjob.eventVector.set e := by
  have hsend : ∀ {res}, (pjob.send e res).2 = true →
      (pjob.send e res).1.state = pjob.state ∧
        (pjob.send e res).1.eventVector = pjob.eventVector.set e := by
    intro res hres
    rw [send_res] at hres
    rw [hres]
    exact ⟨rfl, rfl⟩
  cases e with
  | shutdown => exact hsend h
  | pause => exact hsend h
  | resume => exact hsend h
  | singleShot => exact hsend h

theorem updatePeriod_frame (pjob : PeriodicJob) (n : ℕ) :
    ∃ period cv, (pjob.updatePeriodForPeriodicJob n).1 =
        { pjob with periodInMicroseconds := period, jobWait := cv } ∧ cv ⊆ pjob.jobWait := by
  unfold updatePeriodForPeriodicJob
  split
  · exact ⟨_, _, rfl, Finset.Subset.rfl⟩
  · exact ⟨_, _, rfl, fun u => CondVar.mem_of_mem_signal⟩

end PeriodicJob

/-- A wake-up unblocks a thread and changes nothing else. -/
theorem periodicWake_frame {pjob p' : PeriodicJob} {t : ℕ} {pc : PeriodicPc}
    (h : periodicWake pjob t pc = some p') :
    ∃ cv cv', p' = { pjob with jobWait := cv, stopWait := cv' } := by
  cases pc with
  | runnerPaused total => cases h; exact ⟨_, _, rfl⟩
  | runnerWaiting total time => cases h; exact ⟨_, _, rfl⟩
  | stopWaiting k => cases h; exact ⟨_, _, rfl⟩
  | _ => cases h

/-! ## What the state and the events can do -/

/-- The event that a section sends. -/
def PeriodicPc.sends? : PeriodicPc → Option PeriodicJobControl
  | .send e => some e
  | .delete => some .shutdown
  | _ => none

theorem LoopTurn.events {pjob p' : PeriodicJob} {t total : ℕ} {pc' : PeriodicPc}
    (h : LoopTurn pjob t total p' pc') :
    p'.state = pjob.nextState total ∧ p'.eventVector = .zero := by
  cases h with
  | shutdown p hp _ => rw [hp]; exact ⟨rfl, rfl⟩
  | paused p hp _ => rw [hp]; exact ⟨rfl, rfl⟩
  | waiting p time hp _ _ => rw [hp]; exact ⟨rfl, rfl⟩
  | run p hp _ => rw [hp]; exact ⟨rfl, rfl⟩

theorem LoopAt.events {pjob p : PeriodicJob} {t remaining total : ℕ} {pc : PeriodicPc}
    (h : LoopAt pjob t remaining pc total p) :
    p.state = pjob.state ∧ p.eventVector = pjob.eventVector := by
  cases h with
  | top => exact ⟨rfl, rfl⟩
  | paused total _ => exact ⟨rfl, rfl⟩
  | waiting total time elapsed _ _ => exact ⟨rfl, rfl⟩

/-- The runner consumes the events, or a client sends one, or neither changes. -/
theorem PeriodicMove.events {pjob p' : PeriodicJob} {t remaining : ℕ} {pc pc' : PeriodicPc}
    (h : PeriodicMove pjob t remaining pc p' pc') :
    (∃ (p : PeriodicJob) (total : ℕ), p.state = pjob.state ∧ p.eventVector = pjob.eventVector ∧
      p'.state = p.nextState total ∧ p'.eventVector = .zero) ∨
    (p'.state = pjob.state ∧ (p'.eventVector = pjob.eventVector ∨
      ∃ e, pc.sends? = some e ∧ p'.eventVector = pjob.eventVector.set e)) := by
  cases h with
  | loop pc total p p' pc' hat hturn =>
    exact .inl ⟨p, total, hat.events.1, hat.events.2, hturn.events.1, hturn.events.2⟩
  | invoke => exact .inr ⟨rfl, .inl rfl⟩
  | ended => exact .inr ⟨rfl, .inl rfl⟩
  | call k => exact .inr ⟨rfl, .inl rfl⟩
  | send e res _ =>
    obtain ⟨v, _, _, hframe, hv, -⟩ := pjob.control_frame e
    rw [hframe]
    exact .inr ⟨rfl, hv.imp_right fun hv => ⟨e, rfl, hv⟩⟩
  | updatePeriod n res _ =>
    obtain ⟨_, _, hframe, -⟩ := pjob.updatePeriod_frame n
    rw [hframe]
    exact .inr ⟨rfl, .inl rfl⟩
  | getPeriod => exact .inr ⟨rfl, .inl rfl⟩
  | stopPass pc k hat _ => exact .inr ⟨rfl, .inl rfl⟩
  | stopWait pc k hat _ => exact .inr ⟨rfl, .inl rfl⟩
  | delete =>
    obtain ⟨v, _, _, hframe, hv, -⟩ := pjob.control_frame .shutdown
    rw [hframe]
    exact .inr ⟨rfl, hv.imp_right fun hv => ⟨.shutdown, rfl, hv⟩⟩

/-! ## Where the runner is -/

/-- A control state of the runner. -/
def PeriodicPc.isRunner : PeriodicPc → Bool
  | .runnerTop => true
  | .runnerPaused _ => true
  | .runnerWaiting _ _ => true
  | .runnerInvoke => true
  | .runnerInvoking => true
  | .runnerDone => true
  | _ => false

/-- The control states that the runner can be at in a state. -/
def RunnerAt (state : PeriodicJobState) : PeriodicPc → Prop
  | .runnerTop => state = .paused ∨ state.runs = true
  | .runnerPaused _ => state = .paused
  | .runnerWaiting _ _ => state = .waiting
  | .runnerInvoke => state.runs = true
  | .runnerInvoking => state.runs = true
  | .runnerDone => state = .shutdown
  | _ => True

/-- A move by the runner or by a client. -/
theorem PeriodicMove.runner {pjob p' : PeriodicJob} {t remaining : ℕ} {pc pc' : PeriodicPc}
    (h : PeriodicMove pjob t remaining pc p' pc') :
    (pc.isRunner = true ∧ pc'.isRunner = true ∧
      (RunnerAt pjob.state pc → RunnerAt p'.state pc')) ∨
    (pc.isRunner = false ∧ pc'.isRunner = false ∧ p'.state = pjob.state) := by
  cases h with
  | loop pc total p p' pc' hat hturn =>
    left
    refine ⟨by cases hat <;> rfl, ?_⟩
    cases hturn with
    | shutdown p _ hstate => exact ⟨rfl, fun _ => hstate⟩
    | paused p _ hstate => exact ⟨rfl, fun _ => hstate⟩
    | waiting p time _ hstate _ => exact ⟨rfl, fun _ => hstate⟩
    | run p _ hruns => exact ⟨rfl, fun _ => hruns⟩
  | invoke => exact .inl ⟨rfl, rfl, id⟩
  | ended => exact .inl ⟨rfl, rfl, .inr⟩
  | call k => exact .inr ⟨rfl, by cases k <;> rfl, rfl⟩
  | send e res _ =>
    obtain ⟨_, _, _, hframe, -, -⟩ := pjob.control_frame e
    exact .inr ⟨rfl, rfl, by rw [hframe]⟩
  | updatePeriod n res _ =>
    obtain ⟨_, _, hframe, -⟩ := pjob.updatePeriod_frame n
    exact .inr ⟨rfl, rfl, by rw [hframe]⟩
  | getPeriod => exact .inr ⟨rfl, rfl, rfl⟩
  | stopPass pc k hat _ => exact .inr ⟨by cases hat <;> rfl, rfl, rfl⟩
  | stopWait pc k hat _ => exact .inr ⟨by cases hat <;> rfl, rfl, rfl⟩
  | delete =>
    obtain ⟨_, _, _, hframe, -, -⟩ := pjob.control_frame .shutdown
    exact .inr ⟨rfl, rfl, by rw [hframe]⟩

/-- Thread 0 is the runner, the only one, and is where the state puts it. -/
structure RunnerInv (c : PeriodicConfig) : Prop where
  runner : ∃ pc, c.pc? 0 = some pc ∧ pc.isRunner = true
  only : ∀ t pc, c.pc? t = some pc → pc.isRunner = true → t = 0
  position : ∀ t pc, c.pc? t = some pc → RunnerAt c.shared.state pc

theorem runnerAt_of_client {state : PeriodicJobState} {pc : PeriodicPc}
    (h : pc.isRunner = false) : RunnerAt state pc := by
  cases pc <;> first | exact trivial | cases h

variable {c c' : PeriodicConfig} {a : Act PeriodicJobCall ℕ}

theorem runner_serves :
    System.Serves periodicSystem PeriodicPc.isRunner fun pjob pc => RunnerAt pjob.state pc where
  start _ _ := rfl
  new hs := by
    obtain ⟨-, rfl⟩ := periodicStep_move hs
    exact fun q hq => absurd hq List.not_mem_nil
  step hs := by
    obtain ⟨hmove, rfl⟩ := periodicStep_move hs
    obtain hrunner | ⟨hclient, hclient', hstate⟩ := hmove.runner
    · exact .inl hrunner
    · exact .inr ⟨hclient, hclient', fun q _ hat => hstate ▸ hat⟩
  wake hs q _ hat := by
    obtain ⟨_, _, rfl⟩ := periodicWake_frame hs
    exact hat

theorem RunnerInv.sole (hc : RunnerInv c) :
    System.Sole PeriodicPc.isRunner (fun pjob pc => RunnerAt pjob.state pc) c := by
  obtain ⟨pc, hpc, hrunner⟩ := hc.runner
  exact ⟨hc.only, pc, hpc, hrunner, hc.position 0 pc hpc⟩

theorem RunnerInv.of_sole
    (h : System.Sole PeriodicPc.isRunner (fun pjob pc => RunnerAt pjob.state pc) c) :
    RunnerInv c where
  runner := by
    obtain ⟨pc, hpc, hrunner, -⟩ := h.first
    exact ⟨pc, hpc, hrunner⟩
  only := h.only
  position t pc hpc := by
    cases hrunner : pc.isRunner with
    | false => exact runnerAt_of_client hrunner
    | true =>
      obtain rfl := h.only t pc hpc hrunner
      exact h.holds hpc

theorem RunnerInv.next (hc : RunnerInv c) (h : periodicSystem.next c a = some c') :
    RunnerInv c' :=
  .of_sole (runner_serves.next hc.sole h)

theorem RunnerInv.reach {ok : PeriodicConfig → Act PeriodicJobCall ℕ → Prop} (hc : RunnerInv c)
    (h : periodicSystem.Reach ok c c') : RunnerInv c' :=
  h.invariant hc fun _ _ _ _ hc _ hn => hc.next hn

theorem PeriodicJob.state_of_new {periodicJobFunction : Ptr} {n : ℕ} {allocated threadError : Bool}
    {pjob : PeriodicJob} (h : PeriodicJob.new periodicJobFunction n allocated threadError =
      some pjob) : pjob.state = .paused ∧ pjob.eventVector = .zero := by
  unfold PeriodicJob.new at h
  split at h
  · cases h
  · obtain ⟨period, -, h⟩ := Option.bind_eq_some_iff.mp h
    split at h
    · cases h
    · cases h
      exact ⟨rfl, rfl⟩

theorem runnerInv_init {pjob : PeriodicJob} (h : pjob.state = .paused) :
    RunnerInv (periodicInit pjob) where
  runner := ⟨.runnerTop, rfl, rfl⟩
  only t pc hpc _ := by
    cases t with
    | zero => rfl
    | succ t => cases hpc
  position t pc hpc := by
    cases t with
    | zero => cases hpc; exact .inl h
    | succ t => cases hpc

theorem runner_invariant {pjob : PeriodicJob} (hp : pjob.state = .paused)
    {ok : PeriodicConfig → Act PeriodicJobCall ℕ → Prop}
    (h : periodicSystem.Reach ok (periodicInit pjob) c) : RunnerInv c :=
  (runnerInv_init hp).reach h

end BoomPar
