-- SUMMARY: The executor under a fair scheduler: after a shutdown every call returns and every worker completes, and a deletion settles every job.
import BoomPar.ExecutorFate
import BoomPar.Monitor.Fairness

/-!
# Progress of the executor

No wait of the executor has to end by a timeout. The first shutdown closes the
queue, which releases the submitters and lets the workers run out of jobs; they
leave one after the other, and the last of them wake whoever waits for a zero.
-/

namespace BoomPar

open Monitor

/-- A run of an executor for ever, in which calls and environment keep to `ok`. -/
abbrev ExecutorRun (ok : ExecutorConfig → Act ExecutorCall Env → Prop) (s : ExecutorState) :=
  System.FairRun executorSystem ok (executorInit s)

/-- `delete_executor` returned 1: the executor is freed. -/
def ExecutorFreed (c : ExecutorConfig) : Prop := .returned (.wait .delete true) ∈ c.threads

instance : DecidablePred ExecutorFreed := fun _ => inferInstanceAs (Decidable (_ ∈ _))

/-- A run of an executor that ends when the executor is freed. -/
abbrev ExecutorLife (ok : ExecutorConfig → Act ExecutorCall Env → Prop) (s : ExecutorState) :=
  ExecutorRun (System.BeforeFree ExecutorFreed ok) s

/-- A thread that is done, blocked, or kept out by `shutdown_mutex`. -/
def ExecutorState.rests (s : ExecutorState) (t : ℕ) : ExecutorPc → Bool
  | .enterSubmit _ _ => s.isNew || s.shutdownMutexLocked
  | .enterShutdown _ => s.isNew || s.shutdownMutexLocked
  | .enterWait _ => s.isNew || s.shutdownMutexLocked
  | .leaveSubmit _ _ => s.shutdownMutexLocked
  | .fullWait _ _ => t ∈ s.jobQ.channel.fullWait
  | .workerWait _ => t ∈ s.jobQ.channel.emptyWait
  | .drain _ => t ∈ s.submittersCountUntilZeroWait || s.shutdownMutexLocked
  | .waiting _ => t ∈ s.activeWorkerCountUntilZeroWait
  | .returned _ => true
  | _ => false

section

variable {s : ExecutorState} {t : ℕ} {o : Env} {pc : ExecutorPc}

theorem executorStep_eq_none (h : s.rests t pc = true) : executorStep s t pc o = none := by
  cases pc with
  | enterSubmit p timeout => exact if_pos ((Bool.or_eq_true _ _).mp h)
  | enterShutdown imm => exact if_pos ((Bool.or_eq_true _ _).mp h)
  | enterWait k => exact if_pos ((Bool.or_eq_true _ _).mp h)
  | leaveSubmit p b => exact if_pos h
  | fullWait j timeout => exact if_pos (of_decide_eq_true h)
  | workerWait timeout => exact if_pos (of_decide_eq_true h)
  | waiting k => exact if_pos (of_decide_eq_true h)
  | drain imm => exact if_pos (((Bool.or_eq_true _ _).mp h).imp_left of_decide_eq_true)
  | returned r => rfl
  | _ => cases h

theorem executorStep_isSome (h : s.rests t pc = false) : (executorStep s t pc o).isSome = true := by
  have hfree : ∀ {b c : Bool}, (b || c) = false → ¬(b = true ∨ c = true) := by
    intro b c hor
    rw [← Bool.or_eq_true, hor]
    exact Bool.false_ne_true
  cases pc with
  | newExecutor i =>
    simp only [executorStep]
    split <;> rfl
  | createWorker k =>
    simp only [executorStep]
    split <;> rfl
  | startWorker k =>
    simp only [executorStep]
    split <;> rfl
  | push p timeout =>
    simp only [executorStep]
    split <;> rfl
  | workerRun j =>
    simp only [executorStep]
    split <;> rfl
  | enterSubmit p timeout =>
    simp only [executorStep, if_neg (hfree h)]
    split <;> rfl
  | enterShutdown imm =>
    simp only [executorStep, if_neg (hfree h)]
    split <;> rfl
  | enterWait k =>
    simp only [executorStep, if_neg (hfree h)]
    rfl
  | leaveSubmit p b =>
    have hgoes : ¬s.shutdownMutexLocked = true := Bool.eq_false_iff.mp h
    simp only [executorStep, if_neg hgoes]
    rfl
  | fullWait j timeout =>
    simp only [executorStep, if_neg (of_decide_eq_false h)]
    rfl
  | workerWait timeout =>
    simp only [executorStep, if_neg (of_decide_eq_false h)]
    rfl
  | waiting k =>
    simp only [executorStep, if_neg (of_decide_eq_false h)]
    rfl
  | drain imm =>
    have hgoes : ¬(t ∈ s.submittersCountUntilZeroWait ∨ s.shutdownMutexLocked = true) :=
      fun hor => hfree h (hor.imp_left decide_eq_true)
    simp only [executorStep, if_neg hgoes]
    rfl
  | returned r => cases h
  | _ => rfl

end

/-- The executions that go on for ever may always go on without a failure. -/
def AllowsSmooth (ok : ExecutorConfig → Act ExecutorCall Env → Prop) : Prop :=
  ∀ c t, ok c (.step t (.smooth none))

theorem AllowsSmooth.canStep {ok : ExecutorConfig → Act ExecutorCall Env → Prop}
    (hok : AllowsSmooth ok) {c : ExecutorConfig} {t : ℕ} {pc : ExecutorPc}
    (hpc : c.pc? t = some pc) (h : c.shared.rests t pc = false) :
    System.CanStep executorSystem ok c t :=
  .of_isSome hpc (hok c t) (executorStep_isSome h)

/-! ## One move after the request -/

section Move

variable {s s' : ExecutorState} {t : ℕ} {o : Env} {pc pc' : ExecutorPc} {new : List ExecutorPc}

theorem DrainAt.unlocked {imm : Bool} (h : DrainAt s t imm pc s') :
    s'.shutdownMutexLocked = false := by
  cases h with
  | close q _ => rfl
  | resume _ hfree => exact hfree

/-- Nobody takes `shutdown_mutex` for longer than a section a second time. -/
theorem ExecutorMove.holdsMutex (h : ExecutorMove s t o pc s' pc' new)
    (hr : s.shutdownRequested = true) : pc'.holdsMutex = false := by
  cases h with
  | createWorkerRefuse k _ => cases k <;> rfl
  | settleWorkerError k => cases k <;> rfl
  | settleWorkerAdded k => cases k <;> rfl
  | discardDone k _ => cases k <;> rfl
  | awaitPass _ k _ _ => cases k <;> rfl
  | shutdownFirst imm _ _ hnot =>
    rw [hr] at hnot
    cases hnot
  | _ => rfl

theorem ExecutorMove.unlocked (h : ExecutorMove s t o pc s' pc' new)
    (hr : s.shutdownRequested = true) (hfree : s.shutdownMutexLocked = false) :
    s'.shutdownMutexLocked = false := by
  cases h with
  | shutdownFirst imm _ _ hnot =>
    rw [hr] at hnot
    cases hnot
  | drainWait _ _ _ hat _ => exact hat.unlocked
  | drainReturn _ _ hat _ => exact hat.unlocked
  | drainDiscard _ _ hat _ => exact hat.unlocked
  | discardCancel k j =>
    obtain ⟨_, _, hframe⟩ := s.cancelJob_frame t j
    rw [hframe]
    exact hfree
  | finishJob p =>
    obtain ⟨_, _, hframe⟩ := s.finishJob_frame p o.output
    rw [hframe]
    exact hfree
  | _ => exact hfree

/-- How many sections submitters and workers have before them on a closed queue,
    apart from the jobs that are still queued. -/
def ExecutorPc.load : ExecutorPc → ℕ
  | .push _ _ => 2
  | .fullWait _ _ => 2
  | .readWaiting _ => 8
  | .readEmpty _ => 7
  | .createWorker (.submit _) => 6
  | .startWorker (.submit _) => 5
  | .settleWorker (.submit _) _ => 2
  | .leaveSubmit _ _ => 1
  | .workerPop => 2
  | .workerWait _ => 2
  | .workerRun _ => 4
  | .workerBusy _ => 3
  | .workerLeave => 1
  | _ => 0

theorem ExecutorPc.eq_zero_of_load {pc : ExecutorPc} (hload : pc.load = 0)
    (hnew : pc.isConstructing = false) : pc.isActive = false ∧ pc.isSubmitting = false := by
  cases pc with
  | createWorker k => cases k <;> [cases hnew; cases hload]
  | startWorker k => cases k <;> [cases hnew; cases hload]
  | settleWorker k error => cases k <;> [cases hnew; cases hload]
  | push p timeout => cases hload
  | fullWait j timeout => cases hload
  | readWaiting p => cases hload
  | readEmpty p => cases hload
  | leaveSubmit p b => cases hload
  | workerPop => cases hload
  | workerWait timeout => cases hload
  | workerRun j => cases hload
  | workerBusy p => cases hload
  | workerLeave => cases hload
  | _ => exact ⟨rfl, rfl⟩

theorem PushAt.load {j : Job} {timeout : ℕ} {ch : Channel Job} (h : PushAt s t o pc j timeout ch) :
    pc.load = 2 ∧ ch.closed = s.jobQ.channel.closed := by
  cases h <;> exact ⟨rfl, rfl⟩

theorem PopAt.load {timeout : ℕ} {quit : Bool} {ch : Channel Job}
    (h : PopAt s t o pc timeout quit ch) : pc.load = 2 ∧ ch.closed = s.jobQ.channel.closed := by
  cases h <;> exact ⟨rfl, rfl⟩

/-- On a closed queue a section of a submitter or a worker that takes no job leaves
    it and the worker it creates with less to do. -/
theorem ExecutorMove.load_of_not_run (h : ExecutorMove s t o pc s' pc' new)
    (hclosed : s.jobQ.channel.closed = true) (hr : s.shutdownRequested = true)
    (hnew : pc.isConstructing = false) (hnot : ∀ j, pc' ≠ .workerRun j) :
    pc'.load + (new.map ExecutorPc.load).sum + (if 0 < pc.load then 1 else 0) ≤ pc.load := by
  have hopen : ∀ {ch : Channel Job}, ch.closed = s.jobQ.channel.closed → ch.closed ≠ false := by
    intro ch hsame hfalse
    rw [hsame, hclosed] at hfalse
    cases hfalse
  cases h with
  | newExecutorCreate i _ _ => cases hnew
  | newExecutorReturn i _ => cases hnew
  | createWorkerAdmit k _ => cases k <;> [cases hnew; simp [ExecutorPc.load]]
  | createWorkerRefuse k _ => cases k <;> [cases hnew; simp [ExecutorPc.load, Creator.continue]]
  | startWorkerFail k _ => cases k <;> [cases hnew; simp [ExecutorPc.load]]
  | startWorkerSpawn k _ _ => cases k <;> [cases hnew; simp [ExecutorPc.load]]
  | settleWorkerError k => cases k <;> [cases hnew; simp [ExecutorPc.load, Creator.continue]]
  | settleWorkerAdded k => cases k <;> [cases hnew; simp [ExecutorPc.load, Creator.continue]]
  | submitAdmit p timeout _ _ hidle =>
    rw [hr] at hidle
    cases hidle
  | pushWait _ j timeout _ _ hat hch _ => exact absurd hch (hopen hat.load.2)
  | pushRefuse _ j timeout _ _ hat _ =>
    rw [hat.load.1]
    simp [ExecutorPc.load]
  | pushAcceptFixed _ j timeout _ _ _ hat hch _ _ => exact absurd hch (hopen hat.load.2)
  | pushAcceptCached _ j timeout _ _ _ hat hch _ _ => exact absurd hch (hopen hat.load.2)
  | drainWait _ imm _ hat _ => cases hat <;> simp [ExecutorPc.load]
  | drainReturn _ _ hat _ => cases hat <;> simp [ExecutorPc.load]
  | drainDiscard _ _ hat _ => cases hat <;> simp [ExecutorPc.load]
  | discardDone k _ => cases k <;> simp [ExecutorPc.load, Discarder.continue]
  | awaitWait _ k hat _ => cases hat <;> simp [ExecutorPc.load]
  | awaitPass _ k hat _ => cases hat <;> cases k <;> simp [ExecutorPc.load, Waiter.continue]
  | popWait _ _ _ _ _ hat hch _ _ _ => exact absurd hch (hopen hat.load.2)
  | popNull _ _ _ _ _ hat _ _ _ =>
    rw [hat.load.1]
    simp [ExecutorPc.load]
  | popJob _ _ _ _ _ j _ _ _ _ _ => exact absurd rfl (hnot j)
  | _ => simp [ExecutorPc.load]

/-- A worker is about to run the job that it took out of the queue. -/
theorem ExecutorMove.of_run (h : ExecutorMove s t o pc s' pc' new) {j : Job}
    (hrun : pc' = .workerRun j) :
    pc.load = 2 ∧ new = [] ∧ s.jobQ.channel.contents = j :: s'.jobQ.channel.contents := by
  cases h with
  | createWorkerRefuse k _ => cases k <;> cases hrun
  | settleWorkerError k => cases k <;> cases hrun
  | settleWorkerAdded k => cases k <;> cases hrun
  | discardDone k _ => cases k <;> cases hrun
  | awaitPass _ k _ _ => cases k <;> cases hrun
  | popJob _ _ _ ch q j rest u hat hcons hq =>
    cases hrun
    refine ⟨hat.load.1, rfl, ?_⟩
    rw [← hat.contents_eq, hcons, hq]
  | _ => cases hrun

/-- On a closed queue every section of a submitter or a worker brings the work down. -/
theorem ExecutorMove.load (h : ExecutorMove s t o pc s' pc' new)
    (hclosed : s.jobQ.channel.closed = true) (hr : s.shutdownRequested = true)
    (hnew : pc.isConstructing = false) :
    pc'.load + (new.map ExecutorPc.load).sum + 3 * s'.jobQ.channel.contents.length +
      (if 0 < pc.load then 1 else 0) ≤ pc.load + 3 * s.jobQ.channel.contents.length := by
  by_cases hrun : ∃ j, pc' = .workerRun j
  · obtain ⟨j, hj⟩ := hrun
    obtain ⟨hload, rfl, hcontents⟩ := h.of_run hj
    rw [hload, hj, hcontents, List.length_cons, if_pos Nat.two_pos]
    simp only [ExecutorPc.load, List.map_nil, List.sum_nil]
    omega
  · have hcontrol := h.load_of_not_run hclosed hr hnew fun j hj => hrun ⟨j, hj⟩
    have hlen := h.channel.length_le_of_closed hclosed
    omega

/-- How many sections the other calls have before them when the executor is quiescent and
    `n` jobs are queued. -/
def ExecutorPc.left (n : ℕ) : ExecutorPc → ℕ
  | .enterSubmit _ _ => 1
  | .enterShutdown _ => 1
  | .enterWait _ => 3 * n + 3
  | .close _ => 3 * n + 2
  | .drain _ => 3 * n + 2
  | .waitTest _ => 3 * n + 2
  | .waiting _ => 3 * n + 2
  | .discardTest _ => 3 * n + 1
  | .discardPop _ => max 2 (3 * n)
  | .discardCancel _ _ => 3 * n + 2
  | _ => 0

theorem ExecutorPc.left_mono (pc : ExecutorPc) {m n : ℕ} (h : m ≤ n) : pc.left m ≤ pc.left n := by
  cases pc <;> simp only [ExecutorPc.left] <;> omega

theorem DrainAt.left {imm : Bool} (h : DrainAt s t imm pc s') (n : ℕ) : pc.left n = 3 * n + 2 := by
  cases h <;> rfl

theorem AwaitAt.left {k : Waiter} (h : AwaitAt s t k pc) (n : ℕ) : pc.left n = 3 * n + 2 := by
  cases h <;> rfl

/-- When the executor is quiescent every section of a call brings its end nearer. -/
theorem ExecutorMove.left (h : ExecutorMove s t o pc s' pc' new) (hs : Quiescent s)
    (hleft : 0 < pc.left s.jobQ.channel.contents.length) :
    pc'.left s'.jobQ.channel.contents.length < pc.left s.jobQ.channel.contents.length := by
  have hzero := h.submittersCount hs.requested hs.submitters
  cases h with
  | submitAdmit p timeout _ _ hnot =>
    rw [hs.requested] at hnot
    cases hnot
  | shutdownFirst imm _ _ hnot =>
    rw [hs.requested] at hnot
    cases hnot
  | waitRefuse k _ _ hnot =>
    rw [hs.requested] at hnot
    cases hnot
  | submitRefuse p timeout _ _ _ => exact Nat.one_pos
  | shutdownAgain imm _ _ _ => exact Nat.one_pos
  | waitAdmit k _ _ _ => exact Nat.lt_succ_self _
  | drainWait _ imm _ _ hpos => exact absurd hpos (Nat.not_lt.mpr (Nat.le_of_eq hzero))
  | drainReturn _ _ hat _ =>
    rw [hat.left]
    exact Nat.succ_pos _
  | drainDiscard _ _ hat _ =>
    rw [hat.left, hat.contents_eq]
    exact Nat.lt_succ_self _
  | discardDone k hnil => cases k <;> exact Nat.succ_pos _
  | discardMore k hne =>
    have hpos := List.length_pos_iff.mpr hne
    simp only [ExecutorPc.left]
    omega
  | discardNull k q hnil hq =>
    simp only [ExecutorPc.left, hq, hnil, List.length_nil]
    omega
  | discardJob k j rest q u hcons hq =>
    simp only [ExecutorPc.left, hq, hcons, List.length_cons]
    omega
  | discardCancel k j =>
    obtain ⟨_, _, hframe⟩ := s.cancelJob_frame t j
    rw [hframe]
    exact Nat.lt_succ_self _
  | awaitWait _ k hat hpos =>
    rw [hs.workers] at hpos
    cases hpos
  | awaitPass _ k hat _ =>
    rw [hat.left]
    cases k <;> simp [ExecutorPc.left, Waiter.continue]
  | pushWait _ _ _ _ _ hat _ _ => cases hat <;> cases hleft
  | pushRefuse _ _ _ _ _ hat _ => cases hat <;> cases hleft
  | pushAcceptFixed _ _ _ _ _ _ hat _ _ _ => cases hat <;> cases hleft
  | pushAcceptCached _ _ _ _ _ _ hat _ _ _ => cases hat <;> cases hleft
  | popWait _ _ _ _ _ hat _ _ _ _ => cases hat <;> cases hleft
  | popNull _ _ _ _ _ hat _ _ _ => cases hat <;> cases hleft
  | popJob _ _ _ _ _ _ _ _ hat _ _ => cases hat <;> cases hleft
  | _ => cases hleft

/-- A wait that is called after the request gets past the first test. -/
theorem executorStep_waits {k : Waiter} (hr : s.shutdownRequested = true)
    (h : executorStep s t (.enterWait k) o = some (s', pc', new)) : pc' = .waitTest k := by
  simp only [executorStep, hr, if_true] at h
  split at h
  · cases h
  · cases h
    rfl

/-- The log only grows. -/
theorem ExecutorMove.log_grows (h : ExecutorMove s t o pc s' pc' new) : s.log <+: s'.log := by
  have hfulfil : ∀ (s : ExecutorState) promise v, s.log <+: (s.fulfil promise v).log := by
    intro s promise v
    cases promise with
    | none => exact List.prefix_rfl
    | some p => exact List.prefix_append _ _
  cases h with
  | pushAcceptFixed _ _ _ _ _ _ _ _ _ _ => exact List.prefix_append _ _
  | pushAcceptCached _ _ _ _ _ _ _ _ _ _ => exact List.prefix_append _ _
  | discardJob k _ _ _ _ _ _ => exact List.prefix_append _ _
  | runJob j _ => exact List.prefix_append _ _
  | finishJob p =>
    exact (List.prefix_append _ [.output p o.output]).trans
      (hfulfil { s with log := s.log ++ [.output p o.output] } _ _)
  | discardCancel k j =>
    unfold ExecutorState.cancelJob
    split
    · exact List.prefix_rfl
    · refine List.IsPrefix.trans ?_ (hfulfil _ _ _)
      rw [List.append_assoc]
      exact List.prefix_append _ _
  | drainWait _ _ _ hat _ => cases hat <;> exact List.prefix_rfl
  | drainReturn _ _ hat _ => cases hat <;> exact List.prefix_rfl
  | drainDiscard _ _ hat _ => cases hat <;> exact List.prefix_rfl
  | _ => exact List.prefix_rfl

/-- The call waits for the workers to complete, or found that they have. -/
def ExecutorPc.awaits (k : Waiter) : ExecutorPc → Bool
  | .waitTest k' => k' = k
  | .waiting k' => k' = k
  | .discardTest .delete => k = .delete
  | .discardPop .delete => k = .delete
  | .discardCancel .delete _ => k = .delete
  | .returned (.wait k' completed) => k' = k && completed
  | _ => false

theorem ExecutorMove.awaits {k : Waiter} (h : ExecutorMove s t o pc s' pc' new)
    (hpc : pc.awaits k = true) : pc'.awaits k = true := by
  cases h with
  | createWorkerRefuse c _ => cases hpc
  | pushWait _ _ _ _ _ hat _ _ => cases hat <;> cases hpc
  | pushRefuse _ _ _ _ _ hat _ => cases hat <;> cases hpc
  | pushAcceptFixed _ _ _ _ _ _ hat _ _ _ => cases hat <;> cases hpc
  | pushAcceptCached _ _ _ _ _ _ hat _ _ _ => cases hat <;> cases hpc
  | popWait _ _ _ _ _ hat _ _ _ _ => cases hat <;> cases hpc
  | popNull _ _ _ _ _ hat _ _ _ => cases hat <;> cases hpc
  | popJob _ _ _ _ _ _ _ _ hat _ _ => cases hat <;> cases hpc
  | drainWait _ _ _ hat _ => cases hat <;> cases hpc
  | drainReturn _ _ hat _ => cases hat <;> cases hpc
  | drainDiscard _ _ hat _ => cases hat <;> cases hpc
  | discardDone c _ =>
    cases c with
    | shutdown => cases hpc
    | delete =>
      obtain rfl : k = .delete := of_decide_eq_true hpc
      rfl
  | discardMore c _ => cases c <;> exact hpc
  | discardNull c _ _ _ => cases c <;> exact hpc
  | discardJob c _ _ _ _ _ _ => cases c <;> exact hpc
  | discardCancel c _ => cases c <;> exact hpc
  | awaitWait _ c hat _ => cases hat <;> exact hpc
  | awaitPass _ c hat _ =>
    obtain rfl : c = k := by cases hat <;> exact of_decide_eq_true hpc
    cases c <;> rfl
  | _ => cases hpc

end Move

/-! ## After the request -/

section

variable {s : ExecutorState} {ok : ExecutorConfig → Act ExecutorCall Env → Prop}
  {c c' : ExecutorConfig} {a : Act ExecutorCall Env}

/-- The shutdown is requested, and the mutex free of the request. -/
def Requested (s : ExecutorState) : Prop :=
  s.shutdownRequested = true ∧ s.shutdownMutexLocked = false

theorem Requested.next (hc : Requested c.shared) (h : executorSystem.next c a = some c') :
    Requested c'.shared := by
  refine System.next_stable h ?_ ?_ hc
  · intro s t pc o s' pc' new hs ⟨hr, hfree⟩
    have hmove := executorStep_move hs
    exact ⟨hmove.requested.1 hr, hmove.unlocked hr hfree⟩
  · intro s t pc s' hs hr
    cases executorWake_cases hs <;> exact hr

/-- Nobody constructs an executor that is not new. -/
theorem ExecutorInv.not_constructing (hc : ExecutorInv c) (hnew : c.shared.isNew = false) {t : ℕ}
    {pc : ExecutorPc} (hpc : c.pc? t = some pc) : pc.isConstructing = false := by
  have hzero : c.count ExecutorPc.isConstructing = 0 :=
    (hc.tally .constructor).trans (congrArg Bool.toNat hnew)
  exact Config.count_eq_zero.mp hzero t pc hpc

/-- The first shutdown lets go of the mutex. -/
theorem mutex_drains (hok : AllowsSmooth ok) (s : ExecutorState) :
    System.Drains executorSystem ok (executorInit s)
      (fun c => c.shared.shutdownRequested = true) (fun pc => pc.holdsMutex.toNat)
      (fun _ => 0) where
  keep _ hr _ hn := requested_next hn hr
  can {c t pc} _ _ hpc hload := by
    cases pc with
    | close imm => exact hok.canStep hpc rfl
    | _ => cases hload
  start t k := by cases k <;> rfl
  step {c a t pc o s' pc' new} _ hr _ hs := by
    have hmove := executorStep_move hs
    have hnone : new.map (fun pc => pc.holdsMutex.toNat) = new.map fun _ => 0 :=
      List.map_congr_left fun q hq => by rw [hmove.new_eq q hq]; rfl
    rw [hmove.holdsMutex hr, hnone]
    cases pc.holdsMutex <;> simp
  wake _ _ _ := le_rfl

theorem Channel.waits_of_closed {ch : Channel Job} (ha : ch.Awake) (hclosed : ch.closed = true)
    (t : ℕ) : t ∉ ch.fullWait ∧ t ∉ ch.emptyWait := by
  rw [ha.closed_full hclosed, ha.closed_empty hclosed]
  exact ⟨Finset.notMem_empty t, Finset.notMem_empty t⟩

/-- Submitters and workers run out of work. -/
theorem work_drains (hs : s.Initial) (hok : AllowsSmooth ok) :
    System.Drains executorSystem ok (executorInit s) (fun c => Requested c.shared)
      ExecutorPc.load (fun s => 3 * s.jobQ.channel.contents.length) where
  keep _ hr _ hn := hr.next hn
  can {c t pc} hc hr hpc hload := by
    obtain ⟨hinv, -⟩ := executor_phases hs hc
    obtain ⟨hfull, hempty⟩ :=
      Channel.waits_of_closed hinv.queue.awake (hinv.shared.closed hr.1 hr.2) t
    refine hok.canStep hpc ?_
    cases pc with
    | fullWait j timeout => exact decide_eq_false hfull
    | workerWait timeout => exact decide_eq_false hempty
    | leaveSubmit p b => exact hr.2
    | createWorker k => rfl
    | startWorker k => rfl
    | settleWorker k error => rfl
    | push p timeout => rfl
    | readWaiting p => rfl
    | readEmpty p => rfl
    | workerPop => rfl
    | workerRun j => rfl
    | workerBusy p => rfl
    | workerLeave => rfl
    | _ => cases hload
  start t k := by cases k <;> rfl
  step {c a t pc o s' pc' new} hc hr hpc hs' := by
    obtain ⟨hinv, hphases⟩ := executor_phases hs hc
    refine (executorStep_move hs').load (hinv.shared.closed hr.1 hr.2) hr.1 ?_
    obtain ⟨-, hat⟩ | ⟨k, -, rfl⟩ := hpc
    · exact hinv.not_constructing (hphases.notNew hr.1) hat
    · cases k <;> rfl
  wake _ _ hs' := by
    rw [(executorWake_cases hs').contents_eq]

/-- Neither workers nor submitters are left, and the mutex is free. -/
def AtRest (s : ExecutorState) : Prop := Quiescent s ∧ s.shutdownMutexLocked = false

theorem AtRest.next (hinv : ExecutorInv c) (hphases : Phases c) (hc : AtRest c.shared)
    (h : executorSystem.next c a = some c') : AtRest c'.shared :=
  ⟨quiescent_next hinv hphases h hc.1, (Requested.next ⟨hc.1.requested, hc.2⟩ h).2⟩

theorem ExecutorInv.atRest_of_load (hc : ExecutorInv c) (hphases : Phases c)
    (hr : Requested c.shared) (hload : ∀ t pc, c.pc? t = some pc → pc.load = 0) :
    AtRest c.shared := by
  have hnone := fun t pc hpc =>
    ExecutorPc.eq_zero_of_load (hload t pc hpc) (hc.not_constructing (hphases.notNew hr.1) hpc)
  refine ⟨⟨hr.1, ?_, ?_⟩, hr.2⟩
  · rw [show c.shared.activeWorkerCount = _ from (hc.tally .workers).symm]
    exact Config.count_eq_zero.mpr fun t pc hpc => (hnone t pc hpc).1
  · rw [show c.shared.submittersCount = _ from (hc.tally .submitters).symm]
    exact Config.count_eq_zero.mpr fun t pc hpc => (hnone t pc hpc).2

/-- In an executor at rest a thread that has no section left returned. -/
theorem ExecutorInv.returned_of_left (hc : ExecutorInv c) (hphases : Phases c)
    (hq : AtRest c.shared) {t : ℕ} {pc : ExecutorPc} (hpc : c.pc? t = some pc)
    {n : ℕ} (hleft : pc.left n = 0) : ∃ r, pc = .returned r := by
  have hnotNew := hc.not_constructing (hphases.notNew hq.1.requested) hpc
  have hactive := hc.idle hq.1.workers hpc
  have hsubmitting : pc.isSubmitting = false :=
    Config.count_eq_zero.mp ((hc.tally .submitters).trans hq.1.submitters) t pc hpc
  cases pc with
  | returned r => exact ⟨r, rfl⟩
  | newExecutor i => cases hnotNew
  | createWorker k => cases k <;> [cases hnotNew; cases hsubmitting]
  | startWorker k => cases hactive
  | settleWorker k error => cases k <;> [cases hnotNew; cases hsubmitting]
  | push p timeout => cases hsubmitting
  | fullWait j timeout => cases hsubmitting
  | readWaiting p => cases hsubmitting
  | readEmpty p => cases hsubmitting
  | leaveSubmit p b => cases hsubmitting
  | workerPop => cases hactive
  | workerWait timeout => cases hactive
  | workerRun j => cases hactive
  | workerBusy p => cases hactive
  | workerLeave => cases hactive
  | _ =>
    simp only [ExecutorPc.left] at hleft
    omega

/-- The other calls of an executor at rest return. -/
theorem rest_returns (hs : s.Initial) (hok : AllowsSmooth ok) :
    System.Returns executorSystem ok (executorInit s) (fun c => AtRest c.shared)
      (fun s => ExecutorPc.left s.jobQ.channel.contents.length) where
  keep hc hq _ hn := by
    obtain ⟨hinv, hphases⟩ := executor_phases hs hc
    exact hq.next hinv hphases hn
  can {c t pc} hc hq hpc hleft := by
    obtain ⟨hinv, hphases⟩ := executor_phases hs hc
    have hfree : (c.shared.isNew || c.shared.shutdownMutexLocked) = false := by
      rw [hphases.notNew hq.1.requested, hq.2]
      rfl
    refine hok.canStep hpc ?_
    cases pc with
    | enterSubmit p timeout => exact hfree
    | enterShutdown imm => exact hfree
    | enterWait k => exact hfree
    | close imm => rfl
    | discardTest k => rfl
    | discardPop k => rfl
    | discardCancel k j => rfl
    | waitTest k => rfl
    | drain imm =>
      have hnot : t ∉ c.shared.submittersCountUntilZeroWait := fun hmem =>
        absurd (hinv.shared.submitters ⟨t, hmem⟩).2 (Nat.not_lt.mpr hq.1.submitters.le)
      simp only [ExecutorState.rests, hq.2, Bool.or_false]
      exact decide_eq_false hnot
    | waiting k =>
      have hnot : t ∉ c.shared.activeWorkerCountUntilZeroWait := fun hmem =>
        absurd (hinv.shared.workers ⟨t, hmem⟩) (Nat.not_lt.mpr hq.1.workers.le)
      exact decide_eq_false hnot
    | _ => cases hleft
  step _ hq _ hleft hs' := (executorStep_move hs').left hq.1 hleft
  other hc hq _ hs' pc := by
    obtain ⟨hinv, -⟩ := executor_phases hs hc
    have hclosed := hinv.shared.closed hq.1.requested hq.2
    exact pc.left_mono ((executorStep_move hs').channel.length_le_of_closed hclosed)
  wake _ _ hs' pc := by
    rw [(executorWake_cases hs').contents_eq]

end

/-! ## Every call returns -/

/-- From moment `n` on the executor winds up, unless it is freed before. -/
structure WindsUp {ok : ExecutorConfig → Act ExecutorCall Env → Prop} {s : ExecutorState}
    (r : ExecutorLife ok s) (n : ℕ) : Prop where
  /-- There comes a moment after which nobody submits or executes jobs any more. -/
  quiescent : ∃ m, n ≤ m ∧
    (ExecutorFreed (r.config m) ∨ ∀ l, m ≤ l → Quiescent (r.config l).shared)
  /-- Every call returns, and every worker completes. -/
  returns : ∀ k t pc, (r.config k).pc? t = some pc →
    ∃ m, k ≤ m ∧
      (ExecutorFreed (r.config m) ∨ ∃ result, (r.config m).pc? t = some (.returned result))
  /-- A call that waits for the workers to complete, or found that they have, returns 1. -/
  waits : ∀ k t w pc, (r.config k).pc? t = some pc → pc.awaits w = true →
    ∃ m, k ≤ m ∧
      (ExecutorFreed (r.config m) ∨ (r.config m).pc? t = some (.returned (.wait w true)))

section

variable {s : ExecutorState} {ok : ExecutorConfig → Act ExecutorCall Env → Prop}

theorem requested_stays (r : ExecutorRun ok s) {n m : ℕ}
    (hr : (r.config n).shared.shutdownRequested = true) (hnm : n ≤ m) :
    (r.config m).shared.shutdownRequested = true :=
  r.stable (P := fun c => c.shared.shutdownRequested = true)
    (fun _ hr _ hn => requested_next hn hr) hr hnm

theorem comes_to_rest (hs : s.Initial) (hok : AllowsSmooth ok) (r : ExecutorRun ok s) {n : ℕ}
    (hr : (r.config n).shared.shutdownRequested = true) :
    ∃ m, n ≤ m ∧ AtRest (r.config m).shared := by
  obtain ⟨k, hnk, hrk, hmutex⟩ := (mutex_drains hok s).eventually r hr
  obtain ⟨hinvk, -⟩ := executor_phases hs (r.reach k)
  have hfree : (r.config k).shared.shutdownMutexLocked = false := by
    have hcount : (r.config k).count ExecutorPc.holdsMutex = 0 :=
      Config.count_eq_zero.mpr fun t pc hpc => Bool.toNat_eq_zero.mp (hmutex t pc hpc)
    exact Bool.toNat_eq_zero.mp ((hinvk.tally .mutex).symm.trans hcount)
  obtain ⟨m, hkm, hrm, hload⟩ := (work_drains hs hok).eventually r ⟨hrk, hfree⟩
  obtain ⟨hinvm, hphases⟩ := executor_phases hs (r.reach m)
  exact ⟨m, hnk.trans hkm, hinvm.atRest_of_load hphases hrm hload⟩

theorem call_returns (hs : s.Initial) (hok : AllowsSmooth ok) (r : ExecutorRun ok s) {n : ℕ}
    (hr : (r.config n).shared.shutdownRequested = true) {k t : ℕ} {pc : ExecutorPc}
    (hpc : (r.config k).pc? t = some pc) :
    ∃ m, k ≤ m ∧ ∃ result, (r.config m).pc? t = some (.returned result) := by
  obtain ⟨l, hl, hrest⟩ := comes_to_rest hs hok r (requested_stays r hr (le_max_left n k))
  have hkl : k ≤ l := (le_max_right n k).trans hl
  obtain ⟨pc₁, hpc₁, -⟩ := (r.reach_le hkl).follow (P := fun _ => True) (fun _ _ => trivial)
    hpc trivial
  obtain ⟨m, hlm, hrestm, pc₂, hpc₂, hleft⟩ := (rest_returns hs hok).eventually r hrest hpc₁
  obtain ⟨hinv, hphases⟩ := executor_phases hs (r.reach m)
  obtain ⟨result, rfl⟩ := hinv.returned_of_left hphases hrestm hpc₂ hleft
  exact ⟨m, hkl.trans hlm, result, hpc₂⟩

theorem wait_returns (hs : s.Initial) (hok : AllowsSmooth ok) (r : ExecutorRun ok s) {n : ℕ}
    (hr : (r.config n).shared.shutdownRequested = true) {k t : ℕ} {w : Waiter} {pc : ExecutorPc}
    (hpc : (r.config k).pc? t = some pc) (hw : pc.awaits w = true) :
    ∃ m, k ≤ m ∧ (r.config m).pc? t = some (.returned (.wait w true)) := by
  obtain ⟨m, hkm, result, hresult⟩ := call_returns hs hok r hr hpc
  obtain ⟨pc', hpc', hw'⟩ := (r.reach_le hkm).follow (P := fun pc => pc.awaits w = true)
    (fun hs hw => (executorStep_move hs).awaits hw) hpc hw
  rw [hresult] at hpc'
  cases hpc'
  refine ⟨m, hkm, ?_⟩
  cases result with
  | wait w' completed =>
    obtain ⟨hsame, rfl⟩ := Bool.and_eq_true_iff.mp hw'
    obtain rfl : w' = w := of_decide_eq_true hsame
    exact hresult
  | _ => cases hw'

theorem comes_to_quiescence (hs : s.Initial) (hok : AllowsSmooth ok) (r : ExecutorRun ok s) {n : ℕ}
    (hr : (r.config n).shared.shutdownRequested = true) :
    ∃ m, n ≤ m ∧ ∀ l, m ≤ l → Quiescent (r.config l).shared := by
  obtain ⟨m, hnm, hrest⟩ := comes_to_rest hs hok r hr
  refine ⟨m, hnm, fun l hml => ?_⟩
  refine r.stable (P := fun c => Quiescent c.shared) ?_ hrest.1 hml
  intro c a c' hc hq _ hn
  obtain ⟨hinv, hphases⟩ := executor_phases hs hc
  exact quiescent_next hinv hphases hn hq

/-- In every fair run of an executor up to its deletion, once a shutdown is requested the
    executor winds up, without any wait having to end by its timeout, unless a deletion
    frees it under the calls that are still under way. -/
theorem shutdown_winds_up {type : ExecutorType} {limit : ℕ} {cap : WithTop ℕ} {timeout : ℕ}
    {allocated : Bool} (hnew : ExecutorState.new type limit cap timeout allocated = some s)
    (r : ExecutorLife (fun _ _ => True) s) {n : ℕ}
    (hr : (r.config n).shared.shutdownRequested = true) : WindsUp r n := by
  have hs := ExecutorState.initial_of_new hnew
  have hok : AllowsSmooth fun _ _ => True := fun _ _ => trivial
  rcases r.freed_or_never n with ⟨f, -, hfreed⟩ | hnever
  · have hends : ∀ k, ∃ m, k ≤ m ∧ ExecutorFreed (r.config m) := fun k =>
      ⟨max k f, le_max_left k f, r.freed_stays hfreed (le_max_right k f)⟩
    refine ⟨?_, ?_, ?_⟩
    · exact (hends n).imp fun m hm => ⟨hm.1, .inl hm.2⟩
    · exact fun k t pc _ => (hends k).imp fun m hm => ⟨hm.1, .inl hm.2⟩
    · exact fun k t w pc _ _ => (hends k).imp fun m hm => ⟨hm.1, .inl hm.2⟩
  · have hr' : ((r.neverFreed hnever).config n).shared.shutdownRequested = true := hr
    refine ⟨?_, ?_, ?_⟩
    · exact (comes_to_quiescence hs hok _ hr').imp fun m hm => ⟨hm.1, .inr hm.2⟩
    · exact fun k t pc hpc => (call_returns hs hok _ hr' hpc).imp fun m hm => ⟨hm.1, .inr hm.2⟩
    · exact fun k t w pc hpc hw =>
        (wait_returns hs hok _ hr' hpc hw).imp fun m hm => ⟨hm.1, .inr hm.2⟩

end

/-- The submission of a job meets a shutdown and a wait for the workers. -/
def windingUp : List (Act ExecutorCall Env) :=
  [.step 0 (.smooth none), .call (.submit (some 0) none none none blocking) (.smooth none),
    .step 1 (.smooth none), .step 1 (.smooth none), .step 1 (.smooth none),
    .step 1 (.smooth none), .step 1 (.smooth none), .step 1 (.smooth none),
    .step 2 (.smooth none), .call (.shutdown false) (.smooth none), .step 3 (.smooth none),
    .call .waitForAll (.smooth none), .step 4 (.smooth none), .step 1 (.smooth none),
    .step 3 (.smooth none), .step 2 (.smooth none), .step 2 (.smooth none),
    .step 2 (.smooth none), .step 2 (.smooth none), .step 4 (.smooth none)]

def windingUpLife : ExecutorLife (fun _ _ => True) cachedPool :=
  .ofCheck _ windingUp (by decide)
    (System.not_canStep ExecutorState.rests executorStep_eq_none (by decide))

theorem shutdown_winds_up_windingUpLife :
    WindsUp windingUpLife 10 ∧ ∀ n, ¬ExecutorFreed (windingUpLife.config n) := by
  refine ⟨shutdown_winds_up (Option.some_get _).symm windingUpLife (by decide), fun n hfreed => ?_⟩
  have hlast := windingUpLife.freed_stays hfreed (le_max_left n 20)
  rw [windingUpLife, System.FairRun.ofCheck_config (le_max_right n 20)] at hlast
  exact absurd hlast (by decide)

/-! ## A deletion settles every job -/

/-- What finally becomes of the job `p` that thread `t` submits. -/
inductive Settled {ok : ExecutorConfig → Act ExecutorCall Env → Prop} {s : ExecutorState}
    (r : ExecutorRun ok s) (t : ℕ) (p : JobParams) (m : ℕ) : Prop
  | refused : (∀ l, m ≤ l → (r.config l).pc? t = some (.returned (.submit p false)) ∧
      Untouched (r.config l).shared p) → Settled r t p m
  | executed : (∀ l, m ≤ l → (r.config l).pc? t = some (.returned (.submit p true)) ∧
      Executed (r.config l).shared p) → Settled r t p m
  | cancelled : (∀ l, m ≤ l → (r.config l).pc? t = some (.returned (.submit p true)) ∧
      Cancelled (r.config l).shared p) → Settled r t p m

section

variable {s : ExecutorState} {ok : ExecutorConfig → Act ExecutorCall Env → Prop}

theorem log_stays (r : ExecutorRun ok s) {n m : ℕ} (hnm : n ≤ m) :
    (r.config n).shared.log <+: (r.config m).shared.log := by
  refine r.stable (P := fun c => (r.config n).shared.log <+: c.shared.log) ?_ List.prefix_rfl hnm
  intro c a c' _ hc _ hn
  refine System.next_stable (R := fun s => (r.config n).shared.log <+: s.log) hn ?_ ?_ hc
  · exact fun hs hlog => hlog.trans (executorStep_move hs).log_grows
  · intro s t pc s' hs hlog
    cases executorWake_cases hs <;> exact hlog

/-- A deletion that is called after the shutdown waits for the workers. -/
theorem deletion_awaits (hs : s.Initial) (hok : ∀ {c a}, ok c a → ProperUse c a)
    (r : ExecutorRun ok s) {n : ℕ} {o : Env} (hdelete : r.act n = some (.call .delete o)) :
    (r.config n).shared.shutdownRequested = true ∧
      ∃ pc, (r.config (n + 1)).pc? (r.config n).threads.length = some pc ∧
        pc.awaits .delete = true := by
  obtain ⟨hproper, hnext⟩ := r.move hdelete
  obtain ⟨-, hphases⟩ := executor_phases hs (r.reach n)
  have hr := (hphases.drained_of_shutDown (hok hproper).2).requested
  refine ⟨hr, ?_⟩
  obtain ⟨pc, s', pc', new, hpc, hs', hmove⟩ := System.stepAt_cases hnext
  have hself := Config.pc?_move_self hpc s' pc' new
  rw [Config.pc?_push_self] at hpc
  cases hpc
  have henter : executorStep (r.config n).shared (r.config n).threads.length
      (.enterWait .delete) o = some (s', pc', new) := hs'
  rw [hmove]
  refine ⟨pc', hself, ?_⟩
  rw [executorStep_waits hr henter]
  rfl

theorem ExecutorPc.isDeleting_of_awaits {pc : ExecutorPc} (h : pc.awaits .delete = true) :
    pc.isDeleting = true := by
  cases pc with
  | waitTest k => cases of_decide_eq_true h; rfl
  | waiting k => cases of_decide_eq_true h; rfl
  | discardTest k => cases k <;> [cases h; rfl]
  | discardPop k => cases k <;> [cases h; rfl]
  | discardCancel k j => cases k <;> [cases h; rfl]
  | returned r =>
    cases r with
    | wait k b => cases of_decide_eq_true (Bool.and_eq_true_iff.mp h).1; rfl
    | _ => cases h
  | _ => cases h

/-- A deletion under proper use frees the executor when every submission has returned. -/
theorem FateInv.submission_returned {c : ExecutorConfig} (hc : FateInv c)
    (hfreed : ExecutorFreed c) {t : ℕ} {pc : ExecutorPc} {p : JobParams}
    (hpc : c.pc? t = some pc) (hp : p ∈ pc.params?) :
    ∃ wasJobQueued, pc = .returned (.submit p wasJobQueued) := by
  obtain ⟨d, hd⟩ := List.mem_iff_getElem?.mp hfreed
  have hq := hc.deletion.deletes d _ hd rfl
  have hentered := hc.phases.entered t pc hpc
  have hsubmitting : pc.isSubmitting = false :=
    Config.count_eq_zero.mp ((hc.inv.tally .submitters).trans hq.submitters) t pc hpc
  cases pc with
  | returned r =>
    cases r with
    | submit p' b =>
      obtain rfl : p' = p := Option.some.inj hp
      exact ⟨b, rfl⟩
    | _ => cases hp
  | enterSubmit p' timeout => cases hentered
  | push p' timeout => cases hsubmitting
  | fullWait j timeout => cases hsubmitting
  | readWaiting p' => cases hsubmitting
  | readEmpty p' => cases hsubmitting
  | createWorker k => cases k <;> [cases hp; cases hsubmitting]
  | startWorker k => cases k <;> [cases hp; cases hsubmitting]
  | settleWorker k error => cases k <;> [cases hp; cases hsubmitting]
  | leaveSubmit p' b => cases hsubmitting
  | _ => cases hp

/-- In every fair run under proper use in which `delete_executor` is called it returns 1
    and frees the executor, and at that moment the job of each submission, begun before
    or after the call, has been refused, executed once or cancelled once. -/
theorem deletion_settles_jobs {type : ExecutorType} {limit : ℕ} {cap : WithTop ℕ} {timeout : ℕ}
    {allocated : Bool} (hnew : ExecutorState.new type limit cap timeout allocated = some s)
    (r : ExecutorLife ProperUse s) {n : ℕ} {o : Env}
    (hdelete : r.act n = some (.call .delete o)) :
    ∃ m, n ≤ m ∧
      (r.config m).pc? (r.config n).threads.length = some (.returned (.wait .delete true)) ∧
      ∀ k t pc p, (r.config k).pc? t = some pc → p ∈ pc.params? → Settled r t p m := by
  have hs := ExecutorState.initial_of_new hnew
  have hfate : ∀ l, FateInv (r.config l) := fun l =>
    executor_fate hs ((r.reach l).mono fun _ _ hok => hok.2)
  obtain ⟨hr, pc₀, hpc₀, hawaits⟩ := deletion_awaits hs And.right r hdelete
  -- the deletion returns, and frees the executor
  obtain ⟨m, hnm, hfreed⟩ : ∃ m, n + 1 ≤ m ∧ ExecutorFreed (r.config m) := by
    rcases r.freed_or_never (n + 1) with hfreed | hnever
    · exact hfreed
    · have hok : AllowsSmooth ProperUse := fun _ _ => trivial
      obtain ⟨m, -, hd⟩ := wait_returns hs hok (r.neverFreed hnever) hr hpc₀ hawaits
      exact absurd (List.mem_of_getElem? hd) (hnever m)
  have hlast : ∀ l, m ≤ l → r.config l = r.config m := fun l hml => r.config_of_freed hfreed hml
  -- it is the only deletion
  obtain ⟨u, hu⟩ := List.mem_iff_getElem?.mp hfreed
  obtain ⟨pc₁, hpc₁, hawaits₁⟩ := (r.reach_le hnm).follow (P := fun pc => pc.awaits .delete = true)
    (fun hs hw => (executorStep_move hs).awaits hw) hpc₀ hawaits
  obtain rfl : u = (r.config n).threads.length :=
    Config.eq_of_count_le_one (hfate m).proper.once hu hpc₁ rfl
      (ExecutorPc.isDeleting_of_awaits hawaits₁)
  refine ⟨m, (Nat.le_succ n).trans hnm, hu, fun k t pc p hpc hp => ?_⟩
  obtain ⟨pc', hpc', hp'⟩ := (r.reach_le (le_max_left k m)).follow (P := fun pc => p ∈ pc.params?)
    (fun hs hp => (executorStep_move hs).params ▸ hp) hpc hp
  rw [hlast _ (le_max_right k m)] at hpc'
  obtain ⟨wasJobQueued, rfl⟩ := (hfate m).submission_returned hfreed hpc' hp'
  cases wasJobQueued with
  | false =>
    refine .refused fun l hml => ?_
    rw [hlast l hml]
    exact ⟨hpc', (hfate m).untouched hpc'⟩
  | true =>
    rcases (hfate m).executed_or_cancelled hu hpc' with hexecuted | hcancelled
    · refine .executed fun l hml => ?_
      rw [hlast l hml]
      exact ⟨hpc', hexecuted⟩
    · refine .cancelled fun l hml => ?_
      rw [hlast l hml]
      exact ⟨hpc', hcancelled⟩

end

/-- A worker executes the first job, an immediate shutdown cancels the second, the third
    is refused, and the executor is deleted. -/
def deletedRun : ExecutorLife ProperUse cachedPool :=
  .ofCheck _
    ([.step 0 (.smooth none),
        .call (.submit (some 0) none (some 7) none blocking) (.smooth none)] ++
      List.replicate 7 (.step 1 (.smooth none)) ++
      [.step 2 (.smooth none), .step 2 (.smooth none),
        .call (.submit (some 0) none (some 8) (some 1) blocking) (.smooth none)] ++
      List.replicate 5 (.step 3 (.smooth none)) ++ [.call (.shutdown true) (.smooth none)] ++
      List.replicate 5 (.step 4 (.smooth none)) ++
      [.call (.submit (some 0) none (some 9) none blocking) (.smooth none),
        .call .delete (.smooth none), .step 6 (.smooth none)] ++
      List.replicate 3 (.step 2 (.smooth (some 3))) ++
      [.step 6 (.smooth none), .step 6 (.smooth none)])
    (by decide) (System.not_canStep ExecutorState.rests executorStep_eq_none (by decide))

theorem deletion_settles_jobs_deletedRun :
    ∃ m, 24 ≤ m ∧ (deletedRun.config m).pc? 6 = some (.returned (.wait .delete true)) ∧
      Settled deletedRun 1 ⟨1, some 0, none, some 7, none⟩ m ∧
      Settled deletedRun 3 ⟨3, some 0, none, some 8, some 1⟩ m ∧
      Settled deletedRun 5 ⟨5, some 0, none, some 9, none⟩ m := by
  obtain ⟨m, hm, hdeleted, hsettled⟩ :=
    deletion_settles_jobs (Option.some_get _).symm deletedRun (n := 24) rfl
  exact ⟨m, hm, hdeleted, hsettled 24 1 _ _ rfl rfl, hsettled 24 3 _ _ rfl rfl,
    hsettled 24 5 _ _ rfl rfl⟩

end BoomPar
