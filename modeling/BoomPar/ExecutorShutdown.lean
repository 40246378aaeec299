-- SUMMARY: Shutdown and completion of the executor: what holds once a call of shutdown or of a wait has returned, and exactly when it does.
import BoomPar.ExecutorJobs

/-!
# Shutdown and completion

The first shutdown closes the queue and drains the submitters; a later one and
the waits look at the request only. What the calls promise is therefore kept in
a run exactly if no call looks too early.
-/

namespace BoomPar

open Monitor

namespace ExecutorPc

/-- The shutdown was requested before a thread gets here. -/
def afterRequest : ExecutorPc → Bool
  | .close _ => true
  | .drain _ => true
  | .discardTest _ => true
  | .discardPop _ => true
  | .discardCancel _ _ => true
  | .waitTest _ => true
  | .waiting _ => true
  | .returned (.shutdown _ _) => true
  | .returned (.wait _ true) => true
  | _ => false

/-- The call has not taken its first step. -/
def isEntering : ExecutorPc → Bool
  | .enterSubmit _ _ => true
  | .enterShutdown _ => true
  | .enterWait _ => true
  | _ => false

/-- The first shutdown saw all submitters leave before it gets here. -/
def isDrained : ExecutorPc → Bool
  | .discardTest .shutdown => true
  | .discardPop .shutdown => true
  | .discardCancel .shutdown _ => true
  | .returned (.shutdown true _) => true
  | _ => false

/-- A wait for the workers, or that of a deletion, has found none. -/
def workersCompleted : ExecutorPc → Bool
  | .discardTest .delete => true
  | .discardPop .delete => true
  | .discardCancel .delete _ => true
  | .returned (.wait _ true) => true
  | _ => false

end ExecutorPc

/-- The queue is closed and no submitter is left. -/
structure Drained (s : ExecutorState) : Prop where
  requested : s.shutdownRequested = true
  closed : s.jobQ.channel.closed = true
  submitters : s.submittersCount = 0

/-- Neither workers nor submitters are left. -/
structure Quiescent (s : ExecutorState) : Prop where
  requested : s.shutdownRequested = true
  workers : s.activeWorkerCount = 0
  submitters : s.submittersCount = 0

/-! ## One move -/

section Move

variable {s s' : ExecutorState} {t : ℕ} {o : Env} {pc pc' : ExecutorPc} {new : List ExecutorPc}

/-- A request is not taken back, and is made only after `new_executor` returned. -/
theorem ExecutorMove.requested (h : ExecutorMove s t o pc s' pc' new) :
    (s.shutdownRequested = true → s'.shutdownRequested = true) ∧
      (s.isNew = false → s'.isNew = false) ∧
      (s'.shutdownRequested = true → s.shutdownRequested = true ∨ s'.isNew = false) := by
  cases h with
  | newExecutorReturn i _ => exact ⟨id, fun _ => rfl, fun _ => .inr rfl⟩
  | shutdownFirst imm hnew _ _ => exact ⟨fun _ => rfl, id, fun _ => .inr hnew⟩
  | drainWait _ _ _ hat _ => cases hat <;> exact ⟨id, id, .inl⟩
  | drainReturn _ _ hat _ => cases hat <;> exact ⟨id, id, .inl⟩
  | drainDiscard _ _ hat _ => cases hat <;> exact ⟨id, id, .inl⟩
  | discardCancel k j =>
    obtain ⟨_, _, hframe⟩ := s.cancelJob_frame t j
    rw [hframe]
    exact ⟨id, id, .inl⟩
  | finishJob p =>
    obtain ⟨_, _, hframe⟩ := s.finishJob_frame p o.output
    rw [hframe]
    exact ⟨id, id, .inl⟩
  | _ => exact ⟨id, id, .inl⟩

theorem ExecutorMove.entered (h : ExecutorMove s t o pc s' pc' new) : pc'.isEntering = false := by
  cases h with
  | createWorkerRefuse k _ => cases k <;> rfl
  | settleWorkerError k => cases k <;> rfl
  | settleWorkerAdded k => cases k <;> rfl
  | discardDone k _ => cases k <;> rfl
  | awaitPass _ k _ _ => cases k <;> rfl
  | _ => rfl

theorem ExecutorMove.afterRequest (h : ExecutorMove s t o pc s' pc' new)
    (hpc : pc.afterRequest = true → s.shutdownRequested = true)
    (hpc' : pc'.afterRequest = true) : s'.shutdownRequested = true := by
  have hkeep := h.requested.1
  cases h with
  | createWorkerRefuse k _ => cases k <;> cases hpc'
  | settleWorkerError k => cases k <;> cases hpc'
  | settleWorkerAdded k => cases k <;> cases hpc'
  | shutdownAgain imm _ _ hr => exact hr
  | shutdownFirst imm _ _ _ => rfl
  | drainWait _ _ _ hat _ => exact hkeep (hpc (by cases hat <;> rfl))
  | drainReturn _ _ hat _ => exact hkeep (hpc (by cases hat <;> rfl))
  | drainDiscard _ _ hat _ => exact hkeep (hpc (by cases hat <;> rfl))
  | discardDone k _ => exact hpc rfl
  | discardMore k _ => exact hpc rfl
  | discardNull k _ _ _ => exact hpc rfl
  | discardJob k _ _ _ _ _ _ => exact hpc rfl
  | discardCancel k j => exact hkeep (hpc rfl)
  | waitAdmit k _ _ hr => exact hr
  | awaitWait _ _ hat _ => exact hpc (by cases hat <;> rfl)
  | awaitPass _ _ hat _ => exact hpc (by cases hat <;> rfl)
  | _ => cases hpc'

/-- Once the shutdown is requested, the last submitter that leaves is the last one. -/
theorem ExecutorMove.submittersCount (h : ExecutorMove s t o pc s' pc' new)
    (hr : s.shutdownRequested = true) (hs : s.submittersCount = 0) : s'.submittersCount = 0 := by
  cases h with
  | submitAdmit p timeout _ _ hopen =>
    rw [hr] at hopen
    cases hopen
  | leaveSubmit p b _ => exact Nat.sub_eq_zero_of_le (hs.trans_le (Nat.zero_le _))
  | drainWait _ _ _ hat _ => cases hat <;> exact hs
  | drainReturn _ _ hat _ => cases hat <;> exact hs
  | drainDiscard _ _ hat _ => cases hat <;> exact hs
  | discardCancel k j =>
    obtain ⟨_, _, hframe⟩ := s.cancelJob_frame t j
    rw [hframe]
    exact hs
  | finishJob p =>
    obtain ⟨_, _, hframe⟩ := s.finishJob_frame p o.output
    rw [hframe]
    exact hs
  | _ => exact hs

theorem ExecutorMove.drained (h : ExecutorMove s t o pc s' pc' new) (hs : Drained s) :
    Drained s' where
  requested := h.requested.1 hs.requested
  closed := h.channel.closed_of_closed hs.closed
  submitters := h.submittersCount hs.requested hs.submitters

/-- The first shutdown passes its wait loop with the queue closed. -/
theorem DrainAt.drained {imm : Bool} (hat : DrainAt s t imm pc s') (hs : Consistent s)
    (hr : s.shutdownRequested = true) (hzero : s'.submittersCount = 0) : Drained s' := by
  cases hat with
  | close q hq => exact ⟨hr, by rw [hq]; rfl, hzero⟩
  | resume _ hfree => exact ⟨hr, hs.closed hr hfree, hzero⟩

theorem ExecutorMove.isDrained (h : ExecutorMove s t o pc s' pc' new) (hs : Consistent s)
    (hr : pc.afterRequest = true → s.shutdownRequested = true)
    (hpc : pc.isDrained = true → Drained s) (hpc' : pc'.isDrained = true) : Drained s' := by
  have hkeep := h.drained
  cases h with
  | createWorkerRefuse k _ => cases k <;> cases hpc'
  | settleWorkerError k => cases k <;> cases hpc'
  | settleWorkerAdded k => cases k <;> cases hpc'
  | drainReturn _ _ hat hzero => exact hat.drained hs (hr (by cases hat <;> rfl)) hzero
  | drainDiscard _ _ hat hzero => exact hat.drained hs (hr (by cases hat <;> rfl)) hzero
  | discardDone k _ =>
    cases k with
    | shutdown => exact hpc rfl
    | delete => cases hpc'
  | discardMore k _ =>
    cases k with
    | shutdown => exact hpc rfl
    | delete => cases hpc'
  | discardNull k _ _ _ =>
    cases k with
    | shutdown => exact hkeep (hpc rfl)
    | delete => cases hpc'
  | discardJob k _ _ _ _ _ _ =>
    cases k with
    | shutdown => exact hkeep (hpc rfl)
    | delete => cases hpc'
  | discardCancel k j =>
    cases k with
    | shutdown => exact hkeep (hpc rfl)
    | delete => cases hpc'
  | awaitPass _ k hat _ => cases k <;> cases hpc'
  | _ => cases hpc'

/-- Only a creation of a worker ends the quiet. -/
theorem ExecutorMove.quiescent (h : ExecutorMove s t o pc s' pc' new) (hs : Quiescent s)
    (hpc : ∀ k, pc ≠ .createWorker k) : Quiescent s' := by
  refine ⟨h.requested.1 hs.requested, ?_, h.submittersCount hs.requested hs.submitters⟩
  cases h with
  | createWorkerAdmit k _ => exact absurd rfl (hpc k)
  | settleWorkerError k => exact Nat.sub_eq_zero_of_le (hs.workers.trans_le (Nat.zero_le _))
  | workerLeave => exact Nat.sub_eq_zero_of_le (hs.workers.trans_le (Nat.zero_le _))
  | drainWait _ _ _ hat _ => cases hat <;> exact hs.workers
  | drainReturn _ _ hat _ => cases hat <;> exact hs.workers
  | drainDiscard _ _ hat _ => cases hat <;> exact hs.workers
  | discardCancel k j =>
    obtain ⟨_, _, hframe⟩ := s.cancelJob_frame t j
    rw [hframe]
    exact hs.workers
  | finishJob p =>
    obtain ⟨_, _, hframe⟩ := s.finishJob_frame p o.output
    rw [hframe]
    exact hs.workers
  | _ => exact hs.workers

end Move

/-! ## Phases -/

/-- How far a shutdown has come, as far as some thread knows. -/
structure Phases (c : ExecutorConfig) : Prop where
  entered : System.Free ExecutorPc.isEntering c
  requested : System.After ExecutorPc.afterRequest (fun s => s.shutdownRequested = true) c
  notNew : c.shared.shutdownRequested = true → c.shared.isNew = false
  drained : System.After ExecutorPc.isDrained Drained c

variable {c c' : ExecutorConfig} {a : Act ExecutorCall Env}

theorem requested_next (h : executorSystem.next c a = some c')
    (hr : c.shared.shutdownRequested = true) : c'.shared.shutdownRequested = true :=
  System.next_stable (R := fun s => s.shutdownRequested = true) h
    (fun hs => (executorStep_move hs).requested.1)
    (fun hs hr => by cases executorWake_cases hs <;> exact hr) hr

theorem ExecutorWoken.drained {s s' : ExecutorState} {t : ℕ} (h : ExecutorWoken s t s')
    (hs : Drained s) : Drained s' where
  requested := by cases h <;> exact hs.requested
  closed := h.closed_eq.trans hs.closed
  submitters := by cases h <;> exact hs.submitters

theorem drained_next (h : executorSystem.next c a = some c') (hd : Drained c.shared) :
    Drained c'.shared := by
  exact System.next_stable h (fun hs => (executorStep_move hs).drained)
    (fun hs => (executorWake_cases hs).drained) hd

theorem newWorker_of_step {p : ExecutorPc → Bool} (hp : p .workerPop = false)
    {s s' : ExecutorState} {t : ℕ} {o : Env} {pc pc' : ExecutorPc} {new : List ExecutorPc}
    (h : executorSystem.step s t pc o = some (s', pc', new)) : ∀ q ∈ new, p q = false := by
  intro q hq
  rw [(executorStep_move h).new_eq q hq]
  exact hp

theorem Phases.next (hc : Phases c) (hinv : ExecutorInv c)
    (h : executorSystem.next c a = some c') : Phases c' where
  entered := hc.entered.next h fun hs => ⟨(executorStep_move hs).entered, newWorker_of_step rfl hs⟩
  requested := by
    refine hc.requested.next h (fun t k => by cases k <;> rfl) (newWorker_of_step rfl)
      (requested_next h) ?_
    intro t pc o pc' new _ hs _
    exact (executorStep_move hs).afterRequest
  notNew := by
    refine System.next_stable (R := fun s => s.shutdownRequested = true → s.isNew = false) h
      ?_ ?_ hc.notNew
    · intro s t pc o s' pc' new hs hnew hr
      obtain ⟨-, hisNew, hcause⟩ := (executorStep_move hs).requested
      exact (hcause hr).elim (fun hr => hisNew (hnew hr)) id
    · intro s t pc s' hs hnew
      cases executorWake_cases hs <;> exact hnew
  drained := by
    refine hc.drained.next h (fun t k => by cases k <;> rfl) (newWorker_of_step rfl)
      (drained_next h) ?_
    intro t pc o pc' new hpc hs _ hd
    refine (executorStep_move hs).isDrained hinv.shared ?_ hd
    intro hafter
    obtain ⟨-, hpc⟩ | ⟨k, -, rfl⟩ := hpc
    · exact hc.requested t pc hpc hafter
    · cases k <;> cases hafter

theorem ExecutorState.Initial.phases {s : ExecutorState} (h : s.Initial) :
    Phases (executorInit s) where
  entered t pc hpc := by
    obtain ⟨rfl, rfl⟩ := executorInit_pc hpc
    rfl
  requested t pc hpc hp := by
    obtain ⟨rfl, rfl⟩ := executorInit_pc hpc
    cases hp
  notNew hr := by
    have hidle : s.shutdownRequested.toNat = 0 := h.tally .shutdown nofun
    simp only [executorInit] at hr
    rw [hr] at hidle
    cases hidle
  drained t pc hpc hp := by
    obtain ⟨rfl, rfl⟩ := executorInit_pc hpc
    cases hp

theorem executor_phases {s : ExecutorState} (hs : s.Initial)
    {ok : ExecutorConfig → Act ExecutorCall Env → Prop}
    (h : executorSystem.Reach ok (executorInit s) c) : ExecutorInv c ∧ Phases c :=
  h.invariant (P := fun c => ExecutorInv c ∧ Phases c) ⟨hs.inv, hs.phases⟩
    fun _ _ _ _ hc _ hn => ⟨hc.1.next hn, hc.2.next hc.1 hn⟩

/-- While nobody submits and the executor is not new, nobody creates a worker. -/
theorem ExecutorInv.noCreator (hc : ExecutorInv c) (hnew : c.shared.isNew = false)
    (hs : c.shared.submittersCount = 0) {t : ℕ} {pc : ExecutorPc} (hpc : c.pc? t = some pc)
    (k : Creator) : pc ≠ .createWorker k := by
  rintro rfl
  cases k with
  | newExecutor i =>
    have hpos := hc.tally_pos (k := .constructor) hpc rfl
    simp only [Tally.read, hnew] at hpos
    cases hpos
  | submit p =>
    have hpos := hc.tally_pos (k := .submitters) hpc rfl
    simp only [Tally.read, hs] at hpos
    cases hpos

theorem quiescent_next (hinv : ExecutorInv c) (hphases : Phases c)
    (h : executorSystem.next c a = some c') (hq : Quiescent c.shared) : Quiescent c'.shared := by
  have hnoCreator : ∀ {t pc}, c.pc? t = some pc → ∀ k, pc ≠ .createWorker k :=
    hinv.noCreator (hphases.notNew hq.requested) hq.submitters
  refine System.Moves.stable (R := Quiescent) h ?_ ?_ hq
  · intro t pc o s' pc' new hpc hs hq
    refine (executorStep_move hs).quiescent hq ?_
    obtain ⟨-, hat⟩ | ⟨k, -, rfl⟩ := hpc
    · exact hnoCreator hat
    · cases k <;> exact nofun
  · intro t pc s' hs hq
    cases executorWake_cases hs <;> exact ⟨hq.requested, hq.workers, hq.submitters⟩

/-! ## Completion of the workers -/

/-- Once a wait for the workers has found none, no submission is in progress and
    no worker exists or is being created. -/
def CompletionIsFinal (c : ExecutorConfig) : Prop :=
  ∀ t pc, c.pc? t = some pc → pc.workersCompleted = true →
    c.shared.activeWorkerCount = 0 ∧ c.count ExecutorPc.isSubmitting = 0 ∧
      c.count ExecutorPc.isActive = 0

/-- A wait that finds no worker finds no submitter either. -/
def CompletesAfterSubmitters (c : ExecutorConfig) (a : Act ExecutorCall Env) : Prop :=
  ∀ t o k, a = .step t o → (c.pc? t = some (.waitTest k) ∨ c.pc? t = some (.waiting k)) →
    c.shared.activeWorkerCount = 0 → c.shared.submittersCount = 0

instance (c : ExecutorConfig) : DecidablePred (CompletesAfterSubmitters c)
  | .step t _ =>
    decidable_of_iff (∀ k ∈ [Waiter.waitForAll, .delete],
      (c.pc? t = some (.waitTest k) ∨ c.pc? t = some (.waiting k)) →
      c.shared.activeWorkerCount = 0 → c.shared.submittersCount = 0)
      ⟨fun h _ _ k ha => by cases ha; exact h k (by cases k <;> decide), fun h k _ => h t _ k rfl⟩
  | .call _ _ => .isTrue nofun
  | .wake _ => .isTrue nofun

theorem ExecutorInv.completionIsFinal_iff (hc : ExecutorInv c) (hphases : Phases c) :
    CompletionIsFinal c ↔ System.After ExecutorPc.workersCompleted Quiescent c := by
  have hworkers : c.count ExecutorPc.isActive = c.shared.activeWorkerCount := hc.tally .workers
  have hsubmitters : c.count ExecutorPc.isSubmitting = c.shared.submittersCount :=
    hc.tally .submitters
  constructor
  · intro h t pc hpc hp
    obtain ⟨hactive, hsubmit, -⟩ := h t pc hpc hp
    refine ⟨hphases.requested t pc hpc ?_, hactive, hsubmitters.symm.trans hsubmit⟩
    revert hp
    cases pc with
    | returned r =>
      cases r with
      | wait k b => cases b <;> exact id
      | _ => exact nofun
    | discardTest k => exact fun _ => rfl
    | discardPop k => exact fun _ => rfl
    | discardCancel k j => exact fun _ => rfl
    | _ => exact nofun
  · intro h t pc hpc hp
    obtain ⟨-, hactive, hsubmit⟩ := h t pc hpc hp
    exact ⟨hactive, hsubmitters.trans hsubmit, hworkers.trans hactive⟩

/-- A thread comes to have completed only by its wait loop. -/
theorem ExecutorMove.workersCompleted {s s' : ExecutorState} {t : ℕ} {o : Env}
    {pc pc' : ExecutorPc} {new : List ExecutorPc} (h : ExecutorMove s t o pc s' pc' new)
    (hpc' : pc'.workersCompleted = true) :
    pc.workersCompleted = true ∨
      (∃ k, AwaitAt s t k pc ∧ s.activeWorkerCount = 0 ∧ s' = s) := by
  cases h with
  | createWorkerRefuse k _ => cases k <;> cases hpc'
  | settleWorkerError k => cases k <;> cases hpc'
  | settleWorkerAdded k => cases k <;> cases hpc'
  | discardDone k _ =>
    cases k with
    | shutdown => cases hpc'
    | delete => exact .inl rfl
  | discardMore k _ => cases k <;> exact .inl hpc'
  | discardNull k _ _ _ => cases k <;> exact .inl hpc'
  | discardJob k _ _ _ _ _ _ => cases k <;> exact .inl hpc'
  | discardCancel k j => cases k <;> exact .inl hpc'
  | awaitPass _ k hat hzero => exact .inr ⟨k, hat, hzero, rfl⟩
  | _ => cases hpc'

theorem executorStep_await {s s' : ExecutorState} {t : ℕ} {o : Env} {pc pc' : ExecutorPc}
    {new : List ExecutorPc} {k : Waiter} (hpc : pc = .waitTest k ∨ pc = .waiting k)
    (hzero : s.activeWorkerCount = 0) (h : executorStep s t pc o = some (s', pc', new)) :
    s' = s ∧ pc' = k.continue := by
  have hawait : s.awaitWorkers t k = (s, k.continue) := by
    simp [ExecutorState.awaitWorkers, hzero]
  obtain rfl | rfl := hpc
  · simp only [executorStep, hawait, quietly] at h
    cases h
    exact ⟨rfl, rfl⟩
  · simp only [executorStep, hawait, quietly] at h
    split at h
    · cases h
    · cases h
      exact ⟨rfl, rfl⟩

/-- One transition keeps completion final exactly if no wait completes before the
    submitters have left. -/
theorem completion_next_iff (hinv : ExecutorInv c) (hphases : Phases c)
    (hc : System.After ExecutorPc.workersCompleted Quiescent c)
    (h : executorSystem.next c a = some c') :
    System.After ExecutorPc.workersCompleted Quiescent c' ↔ CompletesAfterSubmitters c a := by
  constructor
  · rintro hc' t o k rfl hawait hzero
    obtain ⟨pc, s, pc', new, hpc, hs, rfl⟩ := System.stepAt_cases h
    rw [hpc, Option.some.injEq, Option.some.injEq] at hawait
    obtain ⟨rfl, rfl⟩ := executorStep_await hawait hzero hs
    have hcompleted : k.continue.workersCompleted = true := by cases k <;> rfl
    exact (hc' t _ (Config.pc?_move_self hpc _ _ _) hcompleted).submitters
  · intro hok
    refine hc.next h (fun t k => by cases k <;> rfl) (newWorker_of_step rfl)
      (quiescent_next hinv hphases h) ?_
    intro t pc o pc' new hpc hs _ hdone hp
    obtain hbefore | ⟨k, hat, hzero, hshared⟩ := (executorStep_move hs).workersCompleted hp
    · exact quiescent_next hinv hphases h (hdone hbefore)
    · obtain ⟨rfl, hpc⟩ | ⟨k', -, rfl⟩ := hpc
      · have hrequested := hphases.requested t pc hpc (by cases hat <;> rfl)
        have hsubmitters := hok t o k rfl (by cases hat <;> simp [hpc]) hzero
        rw [hshared]
        exact ⟨hrequested, hzero, hsubmitters⟩
      · cases k' <;> cases hat

/-- In a run the completion of the workers is final exactly if every wait that
    finds no worker finds no submitter either. -/
theorem completion_is_final_iff {type : ExecutorType} {limit : ℕ} {cap : WithTop ℕ}
    {timeout : ℕ} {allocated : Bool} {s : ExecutorState}
    (hnew : ExecutorState.new type limit cap timeout allocated = some s)
    (as : List (Act ExecutorCall Env)) :
    (∀ c, executorSystem.Visits (executorInit s) as c → CompletionIsFinal c) ↔
      ∀ c a c', executorSystem.Takes (executorInit s) as c a c' →
        CompletesAfterSubmitters c a := by
  have hinit := ExecutorState.initial_of_new hnew
  refine System.forall_visits_iff ?_ ?_ as
  · intro t pc hpc hp
    obtain ⟨rfl, rfl⟩ := executorInit_pc hpc
    cases hp
  · intro c a c' hreach hc hn
    obtain ⟨hinv, hphases⟩ := executor_phases hinit hreach
    rw [(hinv.next hn).completionIsFinal_iff (hphases.next hinv hn)]
    exact completion_next_iff hinv hphases ((hinv.completionIsFinal_iff hphases).mp hc) hn

/-- A submission creates a worker for its job and returns, and a shutdown and a wait
    return after it. -/
def lateCompletion : List (Act ExecutorCall Env) :=
  [.step 0 (.smooth none), .call (.submit (some 0) none none none blocking) (.smooth none),
    .step 1 (.smooth none), .step 1 (.smooth none), .step 1 (.smooth none),
    .step 1 (.smooth none), .step 1 (.smooth none), .step 1 (.smooth none),
    .step 1 (.smooth none), .call (.shutdown false) (.smooth none), .step 3 (.smooth none),
    .call .waitForAll (.smooth none), .step 4 (.smooth none), .step 2 (.smooth none),
    .step 2 (.smooth none), .step 2 (.smooth none), .step 2 (.smooth none),
    .step 2 (.smooth none), .step 4 (.smooth none)]

theorem completion_is_final_iff_lateCompletion :
    (executorSystem.run (executorInit cachedPool) lateCompletion (by decide)).pc? 4 =
        some (.returned (.wait .waitForAll true)) ∧
      ∀ c, executorSystem.Visits (executorInit cachedPool) lateCompletion c →
        CompletionIsFinal c :=
  ⟨by decide,
    (completion_is_final_iff (Option.some_get _).symm _).mpr fun _ _ _ =>
      System.Takes.of_check (by decide)⟩

/-- A wait completes while a submission has pushed its job and not yet created
    the worker for it. -/
def earlyCompletion : List (Act ExecutorCall Env) :=
  [.step 0 (.smooth none), .call (.submit (some 0) none none none blocking) (.smooth none),
    .step 1 (.smooth none), .call (.shutdown false) (.smooth none), .step 2 (.smooth none),
    .call .waitForAll (.smooth none), .step 3 (.smooth none), .step 1 (.smooth none),
    .step 1 (.smooth none), .step 1 (.smooth none), .step 1 (.smooth none)]

/-- A worker is running after a wait has returned 1. -/
theorem completion_not_final :
    ∃ c, executorSystem.Visits (executorInit cachedPool) earlyCompletion c ∧
      ¬CompletionIsFinal c := by
  refine ⟨executorSystem.run _ earlyCompletion (by decide),
    ⟨earlyCompletion, List.prefix_rfl, (Option.some_get _).symm⟩, ?_⟩
  intro h
  have hnone := h 3 (.returned (.wait .waitForAll true)) rfl rfl
  revert hnone
  decide

/-! ## Returned shutdowns -/

namespace ExecutorPc

def returnedShutdown : ExecutorPc → Bool
  | .returned (.shutdown _ _) => true
  | _ => false

def returnedImmediate : ExecutorPc → Bool
  | .returned (.shutdown _ imm) => imm
  | _ => false

end ExecutorPc

/-- What the header promises of a returned call of `shutdown_executor` by thread `t`. -/
structure ShutdownKept (c : ExecutorConfig) (t : ℕ) (shutdownImmediately : Bool) : Prop where
  closed : c.shared.jobQ.channel.closed = true
  submitters : c.shared.submittersCount = 0
  refuses : ∀ functionP inputP promise callback timeout o c',
    executorSystem.next c (.call (.submit functionP inputP promise callback timeout) o) = some c' →
      c'.shared = c.shared ∧ c'.pc? c.threads.length = some (.returned
        (.submit ⟨c.threads.length, functionP, inputP, promise, callback⟩ false))
  empty : shutdownImmediately = true → c.shared.jobQ.channel.contents = []
  discards : ∀ p, c.shared.log.count (.discarded t p) = c.shared.log.count (.cancelled t p)

/-- Every returned call of `shutdown_executor` keeps what the header promises. -/
def ShutdownsKept (c : ExecutorConfig) : Prop :=
  ∀ t first imm, c.pc? t = some (.returned (.shutdown first imm)) → ShutdownKept c t imm

/-- A call of `shutdown_executor` that finds the shutdown requested finds no
    submitter left, and no job either if it is to discard them. -/
def FindsShutdownDone (c : ExecutorConfig) (a : Act ExecutorCall Env) : Prop :=
  ∀ imm o, a = .call (.shutdown imm) o → c.shared.shutdownRequested = true →
    c.shared.submittersCount = 0 ∧ (imm = true → c.shared.jobQ.channel.contents = [])

instance (c : ExecutorConfig) : DecidablePred (FindsShutdownDone c)
  | .call (.shutdown imm) _ =>
    decidable_of_iff (c.shared.shutdownRequested = true →
      c.shared.submittersCount = 0 ∧ (imm = true → c.shared.jobQ.channel.contents = []))
      ⟨fun h _ _ ha => by cases ha; exact h, fun h => h imm _ rfl⟩
  | .call (.submit _ _ _ _ _) _ => .isTrue nofun
  | .call .waitForAll _ => .isTrue nofun
  | .call .delete _ => .isTrue nofun
  | .step _ _ => .isTrue nofun
  | .wake _ => .isTrue nofun

/-- A drained queue without jobs. -/
structure Emptied (s : ExecutorState) : Prop extends Drained s where
  contents : s.jobQ.channel.contents = []

theorem ExecutorMove.emptied {s s' : ExecutorState} {t : ℕ} {o : Env} {pc pc' : ExecutorPc}
    {new : List ExecutorPc} (h : ExecutorMove s t o pc s' pc' new) (hs : Emptied s) :
    Emptied s' where
  toDrained := h.drained hs.toDrained
  contents := h.channel.contents_of_closed hs.closed hs.contents

theorem emptied_next (h : executorSystem.next c a = some c') (he : Emptied c.shared) :
    Emptied c'.shared := by
  refine System.next_stable h (fun hs => (executorStep_move hs).emptied) ?_ he
  intro s t pc s' hs he
  have hwoken := executorWake_cases hs
  exact ⟨hwoken.drained he.toDrained, hwoken.contents_eq.trans he.contents⟩

/-- A shutdown returns after the request of another one, or when it is drained. -/
theorem ExecutorMove.returnedShutdown {s s' : ExecutorState} {t : ℕ} {o : Env}
    {pc : ExecutorPc} {first imm : Bool} {new : List ExecutorPc}
    (h : ExecutorMove s t o pc s' (.returned (.shutdown first imm)) new) :
    (pc = .enterShutdown imm ∧ s.shutdownMutexLocked = false ∧ s.shutdownRequested = true ∧
      s' = s) ∨
    (first = true ∧ imm = false) ∨
    (first = true ∧ imm = true ∧ pc = .discardTest .shutdown ∧
      s.jobQ.channel.contents = [] ∧ s' = s) := by
  generalize hpc' : ExecutorPc.returned (.shutdown first imm) = pc' at h
  cases h with
  | createWorkerRefuse k _ => cases k <;> cases hpc'
  | settleWorkerError k => cases k <;> cases hpc'
  | settleWorkerAdded k => cases k <;> cases hpc'
  | shutdownAgain imm _ hfree hr => cases hpc'; exact .inl ⟨rfl, hfree, hr, rfl⟩
  | drainReturn _ _ hat _ => cases hpc'; exact .inr (.inl ⟨rfl, rfl⟩)
  | discardDone k hnil =>
    cases k with
    | shutdown => cases hpc'; exact .inr (.inr ⟨rfl, rfl, rfl, hnil, rfl⟩)
    | delete => cases hpc'
  | awaitPass _ k hat _ => cases k <;> cases hpc'
  | _ => cases hpc'

/-- What the returned shutdowns know of the shared state. -/
def ShutdownsDone (c : ExecutorConfig) : Prop :=
  System.After ExecutorPc.returnedShutdown Drained c ∧
    System.After ExecutorPc.returnedImmediate Emptied c

theorem next_submit_refused (hr : c.shared.shutdownRequested = true)
    {functionP inputP promise callback : Ptr} {timeout : ℕ} {o : Env}
    (h : executorSystem.next c (.call (.submit functionP inputP promise callback timeout) o) =
      some c') : c'.shared = c.shared ∧ c'.pc? c.threads.length = some (.returned
        (.submit ⟨c.threads.length, functionP, inputP, promise, callback⟩ false)) := by
  obtain ⟨pc, s, pc', new, hpc, hs, rfl⟩ := System.stepAt_cases h
  have hmoved := Config.pc?_move_self hpc s pc' new
  rw [Config.pc?_push_self] at hpc
  cases hpc
  simp only [executorSystem, ExecutorCall.start, executorStep, Config.push_shared] at hs
  split at hs
  · cases hs
  · cases hs
    exact ⟨rfl, hmoved⟩

theorem next_shutdown_again (hr : c.shared.shutdownRequested = true) {imm : Bool} {o : Env}
    (h : executorSystem.next c (.call (.shutdown imm) o) = some c') :
    c'.shared = c.shared ∧
      c'.pc? c.threads.length = some (.returned (.shutdown false imm)) := by
  obtain ⟨pc, s, pc', new, hpc, hs, rfl⟩ := System.stepAt_cases h
  have hmoved := Config.pc?_move_self hpc s pc' new
  rw [Config.pc?_push_self] at hpc
  cases hpc
  simp only [executorSystem, ExecutorCall.start, executorStep, Config.push_shared] at hs
  split at hs
  · cases hs
  · cases hs
    exact ⟨rfl, hmoved⟩

theorem shutdownsKept_iff (hphases : Phases c) (hjobs : JobsInv c) :
    ShutdownsKept c ↔ ShutdownsDone c := by
  constructor
  · intro h
    refine ⟨?_, ?_⟩
    · intro t pc hpc hp
      cases pc with
      | returned r =>
        cases r with
        | shutdown first imm =>
          have hkept := h t first imm hpc
          exact ⟨hphases.requested t _ hpc rfl, hkept.closed, hkept.submitters⟩
        | _ => cases hp
      | _ => cases hp
    · intro t pc hpc hp
      cases pc with
      | returned r =>
        cases r with
        | shutdown first imm =>
          have hkept := h t first imm hpc
          exact ⟨⟨hphases.requested t _ hpc rfl, hkept.closed, hkept.submitters⟩,
            hkept.empty hp⟩
        | _ => cases hp
      | _ => cases hp
  · intro h t first imm hpc
    have hdrained := h.1 t _ hpc rfl
    refine ⟨hdrained.closed, hdrained.submitters, ?_, ?_, ?_⟩
    · exact fun _ _ _ _ _ _ _ => next_submit_refused hdrained.requested
    · exact fun himm => (h.2 t _ hpc himm).contents
    · intro p
      have hdiscards := hjobs.discards t p
      rw [hpc] at hdiscards
      exact hdiscards

/-- One transition keeps the promises of the returned shutdowns exactly if no
    later shutdown comes too early. -/
theorem shutdowns_next_iff (hinv : ExecutorInv c) (hphases : Phases c) (hc : ShutdownsDone c)
    (h : executorSystem.next c a = some c') : ShutdownsDone c' ↔ FindsShutdownDone c a := by
  constructor
  · rintro ⟨hdrained, hemptied⟩ imm o rfl hr
    obtain ⟨hshared, hpc⟩ := next_shutdown_again hr h
    rw [← hshared]
    exact ⟨(hdrained _ _ hpc rfl).submitters, fun himm => (hemptied _ _ hpc himm).contents⟩
  · intro hok
    have hphases' := hphases.next hinv h
    -- a thread that returns now either called too late, or drained the queue itself
    have hagain : ∀ {t pc o imm}, ((a = .step t o ∧ c.pc? t = some pc) ∨
        (∃ k, a = .call k o ∧ pc = executorSystem.start t k)) → pc = .enterShutdown imm →
        c.shared.shutdownMutexLocked = false → c.shared.shutdownRequested = true →
        Drained c.shared ∧ (imm = true → c.shared.jobQ.channel.contents = []) := by
      rintro t pc o imm hpc rfl hfree hr
      have ha : a = .call (.shutdown imm) o := by
        obtain ⟨-, hpc⟩ | ⟨k, rfl, hstart⟩ := hpc
        · cases hphases.entered t _ hpc
        · cases k <;> cases hstart
          rfl
      obtain ⟨hsubmitters, hempty⟩ := hok imm o ha hr
      exact ⟨⟨hr, hinv.shared.closed hr hfree, hsubmitters⟩, hempty⟩
    refine ⟨?_, ?_⟩
    · refine hc.1.next h (fun t k => by cases k <;> rfl) (newWorker_of_step rfl)
        (drained_next h) ?_
      intro t pc o pc' new hpc hs hpc' _ hp
      cases pc' with
      | returned r =>
        cases r with
        | shutdown first imm =>
          obtain ⟨hcall, hfree, hr, hshared⟩ | ⟨rfl, -⟩ | ⟨rfl, -⟩ :=
            (executorStep_move hs).returnedShutdown
          · rw [hshared]
            exact (hagain hpc hcall hfree hr).1
          · exact hphases'.drained t _ hpc' rfl
          · exact hphases'.drained t _ hpc' rfl
        | _ => cases hp
      | _ => cases hp
    · refine hc.2.next h (fun t k => by cases k <;> rfl) (newWorker_of_step rfl)
        (emptied_next h) ?_
      intro t pc o pc' new hpc hs hpc' _ hp
      cases pc' with
      | returned r =>
        cases r with
        | shutdown first imm =>
          obtain ⟨hcall, hfree, hr, hshared⟩ | ⟨rfl, rfl⟩ | ⟨rfl, -, -, hnil, hshared⟩ :=
            (executorStep_move hs).returnedShutdown
          · obtain ⟨hdrained, hempty⟩ := hagain hpc hcall hfree hr
            rw [hshared]
            exact ⟨hdrained, hempty hp⟩
          · cases hp
          · refine ⟨hphases'.drained t _ hpc' rfl, ?_⟩
            rw [hshared]
            exact hnil
        | _ => cases hp
      | _ => cases hp

/-- In a run every returned shutdown keeps what the header promises exactly if
    no later shutdown finds submitters, or jobs that it should discard. -/
theorem shutdowns_kept_iff {type : ExecutorType} {limit : ℕ} {cap : WithTop ℕ}
    {timeout : ℕ} {allocated : Bool} {s : ExecutorState}
    (hnew : ExecutorState.new type limit cap timeout allocated = some s)
    (as : List (Act ExecutorCall Env)) :
    (∀ c, executorSystem.Visits (executorInit s) as c → ShutdownsKept c) ↔
      ∀ c a c', executorSystem.Takes (executorInit s) as c a c' → FindsShutdownDone c a := by
  have hinit := ExecutorState.initial_of_new hnew
  refine System.forall_visits_iff ?_ ?_ as
  · intro t first imm hpc
    obtain ⟨-, hpc⟩ := executorInit_pc hpc
    cases hpc
  · intro c a c' hreach hc hn
    obtain ⟨hinv, hphases⟩ := executor_phases hinit hreach
    have hjobs := executor_jobs hinit hreach
    rw [shutdownsKept_iff (hphases.next hinv hn) (hjobs.next hn)]
    exact shutdowns_next_iff hinv hphases ((shutdownsKept_iff hphases hjobs).mp hc) hn

/-- After that the executor is shut down once more, immediately. -/
def lateShutdown : List (Act ExecutorCall Env) :=
  lateCompletion ++ [.call (.shutdown true) (.smooth none)]

theorem shutdowns_kept_iff_lateShutdown :
    (executorSystem.run (executorInit cachedPool) lateShutdown (by decide)).pc? 3 =
        some (.returned (.shutdown true false)) ∧
      (executorSystem.run (executorInit cachedPool) lateShutdown (by decide)).pc? 5 =
        some (.returned (.shutdown false true)) ∧
      ∀ c, executorSystem.Visits (executorInit cachedPool) lateShutdown c → ShutdownsKept c :=
  ⟨by decide, by decide,
    (shutdowns_kept_iff (Option.some_get _).symm _).mpr fun _ _ _ =>
      System.Takes.of_check (by decide)⟩

/-- An immediate shutdown is requested while a graceful one waits for a submitter
    whose job is queued. -/
def earlyShutdown : List (Act ExecutorCall Env) :=
  [.step 0 (.smooth none), .call (.submit (some 0) none none none blocking) (.smooth none),
    .step 1 (.smooth none), .call (.shutdown false) (.smooth none), .step 2 (.smooth none),
    .call (.shutdown true) (.smooth none)]

/-- The immediate shutdown has returned, with a submitter left and its job queued. -/
theorem shutdowns_not_kept :
    ∃ c, executorSystem.Visits (executorInit cachedPool) earlyShutdown c ∧
      ¬ShutdownsKept c := by
  refine ⟨executorSystem.run _ earlyShutdown (by decide),
    ⟨earlyShutdown, List.prefix_rfl, (Option.some_get _).symm⟩, ?_⟩
  intro h
  have hkept := h 3 false true rfl
  have hsubmitters := hkept.submitters
  revert hsubmitters
  decide

end BoomPar
