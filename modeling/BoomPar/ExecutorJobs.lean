-- SUMMARY: Where each job of the executor is: with a thread, in the queue, or finished, and what the log says of it.
import BoomPar.ExecutorCounters

/-!
# Jobs of the executor

A job whose push succeeded is a token: it is in the queue, with one thread, or
finished, and no move duplicates or drops it. The other events of the log and
the promises follow the tokens.
-/

namespace BoomPar

open Monitor

namespace ExecutorEvent

/-- The function of the job returned. -/
def outputs (p : JobParams) : ExecutorEvent → Bool
  | .output p' _ => p' = p
  | _ => false

/-- The job was cancelled, by any thread. -/
def cancels (p : JobParams) : ExecutorEvent → Bool
  | .cancelled _ p' => p' = p
  | _ => false

/-- The value that the end of a job brings to the promise `q`, if any. -/
def finishes (q : ℕ) : ExecutorEvent → Option Ptr
  | .output p v => if p.promiseForOutput = some q then some v else none
  | .cancelled _ p => if p.promiseForOutput = some q then some none else none
  | _ => none

/-- The value that was set as the result of the promise `q`, if any. -/
def sets (q : ℕ) : ExecutorEvent → Option Ptr
  | .promiseSet q' v => if q' = q then some v else none
  | _ => none

end ExecutorEvent

namespace ExecutorPc

/-- The job object at hand that has not been executed or cancelled. -/
def job? : ExecutorPc → Option Job
  | .fullWait j _ => some j
  | .workerRun j => some j
  | .discardCancel _ j => some j
  | _ => none

/-- The thread took the job out of the queue and has not finished it. -/
def holds (p : JobParams) : ExecutorPc → Bool
  | .workerRun j => j.params = p
  | .workerBusy p' => p' = p
  | .discardCancel _ j => j.params = p
  | _ => false

/-- The thread is inside the function of the job. -/
def executes (p : JobParams) : ExecutorPc → Bool
  | .workerBusy p' => p' = p
  | _ => false

/-- The thread is about to cancel the job. -/
def cancels (p : JobParams) : ExecutorPc → Bool
  | .discardCancel _ j => j.params = p
  | _ => false

/-- The submission whose push of the job succeeded, returned or not. -/
def submitted (p : JobParams) : ExecutorPc → Bool
  | .readWaiting p' => p' = p
  | .readEmpty p' => p' = p
  | .createWorker (.submit p') => p' = p
  | .startWorker (.submit p') => p' = p
  | .settleWorker (.submit p') _ => p' = p
  | .leaveSubmit p' wasJobQueued => wasJobQueued && p' = p
  | .returned (.submit p' wasJobQueued) => wasJobQueued && p' = p
  | _ => false

end ExecutorPc

/-- How often the job is in the queue. -/
def ExecutorState.inQueue (p : JobParams) (s : ExecutorState) : ℕ :=
  (s.jobQ.channel.contents.map Job.params).count p

/-- How often the job was executed to its end or cancelled. -/
def ExecutorState.finished (p : JobParams) (s : ExecutorState) : ℕ :=
  s.log.countP (ExecutorEvent.outputs p) + s.log.countP (ExecutorEvent.cancels p)

/-! ## The log through the end of a job -/

namespace ExecutorState

theorem countP_fulfil {q : ExecutorEvent → Bool} (hq : ∀ p v, q (.promiseSet p v) = false)
    (s : ExecutorState) (promise v : Ptr) :
    (s.fulfil promise v).log.countP q = s.log.countP q := by
  cases promise with
  | none => rfl
  | some p =>
    simp only [fulfil, List.countP_append]
    split
    · simp [hq]
    · rfl

theorem countP_finishJob {q : ExecutorEvent → Bool} (hq : ∀ p v, q (.promiseSet p v) = false)
    (s : ExecutorState) (p : JobParams) (v : Ptr) :
    (s.finishJob p v).log.countP q = s.log.countP q + (q (.output p v)).toNat := by
  rw [finishJob, countP_fulfil hq, List.countP_append, List.countP_singleton]
  cases q (.output p v) <;> rfl

theorem countP_cancelJob {q : ExecutorEvent → Bool} (hq : ∀ p v, q (.promiseSet p v) = false)
    (s : ExecutorState) (t : ℕ) {j : Job} (hj : j.state = .created) :
    (s.cancelJob t j).log.countP q = s.log.countP q +
      (if j.params.cancellationCallback = none then 0
        else (q (.cancellationCallback j.params)).toNat) + (q (.cancelled t j.params)).toNat := by
  have hcancel : j.cancel = some { j with state := .cancelled } := by simp [Job.cancel, hj]
  simp only [cancelJob, hcancel]
  rw [countP_fulfil hq, List.countP_append, List.countP_append, List.countP_singleton]
  congr 1
  · congr 1
    split
    · rfl
    · rw [List.countP_singleton]
      cases q (.cancellationCallback j.params) <;> rfl
  · cases q (.cancelled t j.params) <;> rfl

/-- Where the callback does not count, only the cancellation does. -/
theorem countP_cancelJob_of_uncalled {q : ExecutorEvent → Bool}
    (hq : ∀ p v, q (.promiseSet p v) = false) (hcall : ∀ p, q (.cancellationCallback p) = false)
    (s : ExecutorState) (t : ℕ) {j : Job} (hj : j.state = .created) :
    (s.cancelJob t j).log.countP q =
      s.log.countP q + (q (.cancelled t j.params)).toNat := by
  rw [countP_cancelJob hq s t hj, hcall, Bool.toNat_false, ite_self, Nat.add_zero]

end ExecutorState

/-! ## Jobs that are still to be executed or cancelled -/

/-- All jobs in the queue and at hand are in the state CREATED. -/
structure JobsCreated (c : ExecutorConfig) : Prop where
  queue : ∀ j ∈ c.shared.jobQ.channel.contents, j.state = .created
  threads : ∀ t pc, c.pc? t = some pc → ∀ j, pc.job? = some j → j.state = .created

theorem PushAt.created {s : ExecutorState} {t : ℕ} {o : Env} {pc : ExecutorPc} {j : Job}
    {timeout : ℕ} {ch : Channel Job} (h : PushAt s t o pc j timeout ch)
    (hpc : ∀ j, pc.job? = some j → j.state = .created) : j.state = .created := by
  cases h with
  | call p timeout => rfl
  | resume j timeout _ => exact hpc j rfl

theorem ExecutorMove.created {s s' : ExecutorState} {t : ℕ} {o : Env} {pc pc' : ExecutorPc}
    {new : List ExecutorPc} (h : ExecutorMove s t o pc s' pc' new)
    (hq : ∀ j ∈ s.jobQ.channel.contents, j.state = .created)
    (hpc : ∀ j, pc.job? = some j → j.state = .created) :
    (∀ j ∈ s'.jobQ.channel.contents, j.state = .created) ∧
      ∀ j, pc'.job? = some j → j.state = .created := by
  have hone : ∀ {j : Job}, j.state = .created → ∀ j', some j = some j' → j'.state = .created :=
    fun hj j' he => Option.some.inj he ▸ hj
  cases h with
  | createWorkerRefuse k _ => cases k <;> exact ⟨hq, nofun⟩
  | settleWorkerError k => cases k <;> exact ⟨hq, nofun⟩
  | settleWorkerAdded k => cases k <;> exact ⟨hq, nofun⟩
  | pushWait _ j _ ch q hat _ hch =>
    simp only [hch, hat.contents_eq]
    exact ⟨hq, hone (hat.created hpc)⟩
  | pushRefuse _ j _ ch q hat hch =>
    simp only [hch, hat.contents_eq]
    exact ⟨hq, nofun⟩
  | pushAcceptFixed _ j _ ch q u hat _ _ hch =>
    simp only [hch, hat.contents_eq, List.mem_append, List.mem_singleton]
    refine ⟨?_, nofun⟩
    rintro j' (hj' | rfl)
    · exact hq j' hj'
    · exact hat.created hpc
  | pushAcceptCached _ j _ ch q u hat _ _ hch =>
    simp only [hch, hat.contents_eq, List.mem_append, List.mem_singleton]
    refine ⟨?_, nofun⟩
    rintro j' (hj' | rfl)
    · exact hq j' hj'
    · exact hat.created hpc
  | drainWait _ _ _ hat _ => simp only [hat.contents_eq]; exact ⟨hq, nofun⟩
  | drainReturn _ _ hat _ => simp only [hat.contents_eq]; exact ⟨hq, nofun⟩
  | drainDiscard _ _ hat _ => simp only [hat.contents_eq]; exact ⟨hq, nofun⟩
  | discardDone k _ => cases k <;> exact ⟨hq, nofun⟩
  | discardNull k q _ hch => simp only [hch]; exact ⟨hq, nofun⟩
  | discardJob k j rest q u hcons hch =>
    rw [hcons, List.forall_mem_cons] at hq
    simp only [hch]
    exact ⟨hq.2, hone hq.1⟩
  | discardCancel k j =>
    obtain ⟨_, _, hframe⟩ := s.cancelJob_frame t j
    rw [hframe]
    exact ⟨hq, nofun⟩
  | awaitPass _ k hat _ => cases k <;> exact ⟨hq, nofun⟩
  | popWait _ _ _ ch q hat _ _ _ hch =>
    simp only [hch, hat.contents_eq]
    exact ⟨hq, nofun⟩
  | popNull _ _ _ ch q hat _ _ hch =>
    simp only [hch, hat.contents_eq]
    exact ⟨hq, nofun⟩
  | popJob _ _ _ ch q j rest u hat hcons hch =>
    rw [← hat.contents_eq, hcons, List.forall_mem_cons] at hq
    simp only [hch]
    exact ⟨hq.2, hone hq.1⟩
  | finishJob p =>
    obtain ⟨_, _, hframe⟩ := s.finishJob_frame p o.output
    rw [hframe]
    exact ⟨hq, nofun⟩
  | _ => exact ⟨hq, nofun⟩

theorem JobsCreated.next {c c' : ExecutorConfig} {a : Act ExecutorCall Env} (hc : JobsCreated c)
    (h : executorSystem.next c a = some c') : JobsCreated c' := by
  refine System.next_induction (P := JobsCreated) ?_ ?_ ?_ hc h
  · intro c k hc
    refine ⟨hc.queue, ?_⟩
    intro t pc hpc
    obtain hpc | ⟨-, rfl⟩ := Config.pc?_push_cases hpc
    · exact hc.threads t pc hpc
    · cases k <;> exact nofun
  · intro c t pc o s pc' new hc hpc hs
    have hmove := executorStep_move hs
    obtain ⟨hqueue, hself⟩ := hmove.created hc.queue (hc.threads t pc hpc)
    refine ⟨hqueue, ?_⟩
    intro u q hq
    obtain ⟨-, rfl⟩ | ⟨-, hq⟩ | ⟨-, hmem⟩ := Config.pc?_move_cases hq
    · exact hself
    · exact hc.threads u q hq
    · rw [hmove.new_eq q hmem]
      exact nofun
  · intro c t pc s hc _ hs
    refine ⟨?_, hc.threads⟩
    rw [(executorWake_cases hs).contents_eq]
    exact hc.queue

/-! ## What a move does to jobs -/

namespace ExecutorPc

/-- The thread has taken no job out of the queue. -/
def isIdle : ExecutorPc → Bool
  | .workerRun _ => false
  | .workerBusy _ => false
  | .discardCancel _ _ => false
  | _ => true

/-- The job at a control state is one that can still be executed or cancelled. -/
def Fresh (pc : ExecutorPc) : Prop := ∀ j, pc.job? = some j → j.state = .created

end ExecutorPc

/-- The moves by what they do to jobs, to the log and to promises. -/
inductive JobMove (s : ExecutorState) (t : ℕ) (o : Env) :
    ExecutorPc → ExecutorState → ExecutorPc → Prop
  | idle (pc : ExecutorPc) (s' : ExecutorState) (pc' : ExecutorPc) :
      pc.isIdle = true → pc'.isIdle = true → (∀ p, pc'.submitted p = pc.submitted p) →
      s'.jobQ.channel.contents = s.jobQ.channel.contents → s'.log = s.log →
      s'.promises = s.promises → JobMove s t o pc s' pc'
  | queue (pc : ExecutorPc) (s' : ExecutorState) (pc' : ExecutorPc) (j : Job) :
      pc.isIdle = true → pc'.isIdle = true → (∀ p, pc.submitted p = false) →
      (∀ p, pc'.submitted p = decide (j.params = p)) →
      s'.jobQ.channel.contents = s.jobQ.channel.contents ++ [j] →
      s'.log = s.log ++ [.queued j.params] → s'.promises = s.promises → JobMove s t o pc s' pc'
  | take (pc : ExecutorPc) (s' : ExecutorState) (j : Job) :
      pc.isIdle = true → (∀ p, pc.submitted p = false) →
      s.jobQ.channel.contents = j :: s'.jobQ.channel.contents → s'.log = s.log →
      s'.promises = s.promises → JobMove s t o pc s' (.workerRun j)
  | discard (k : Discarder) (s' : ExecutorState) (j : Job) :
      s.jobQ.channel.contents = j :: s'.jobQ.channel.contents →
      s'.log = s.log ++ [.discarded t j.params] → s'.promises = s.promises →
      JobMove s t o (.discardPop k) s' (.discardCancel k j)
  | invoke (j : Job) :
      JobMove s t o (.workerRun j) { s with log := s.log ++ [.invoked j.params] }
        (.workerBusy j.params)
  | finish (p : JobParams) :
      JobMove s t o (.workerBusy p) (s.finishJob p o.output) .workerPop
  | cancel (k : Discarder) (j : Job) : j.state = .created →
      JobMove s t o (.discardCancel k j) (s.cancelJob t j) (.discardTest k)

theorem ExecutorMove.jobs {s s' : ExecutorState} {t : ℕ} {o : Env} {pc pc' : ExecutorPc}
    {new : List ExecutorPc} (h : ExecutorMove s t o pc s' pc' new) (hfresh : pc.Fresh) :
    JobMove s t o pc s' pc' := by
  cases h with
  | createWorkerAdmit k _ => cases k <;> exact .idle _ _ _ rfl rfl (fun _ => rfl) rfl rfl rfl
  | createWorkerRefuse k _ => cases k <;> exact .idle _ _ _ rfl rfl (fun _ => rfl) rfl rfl rfl
  | startWorkerFail k _ => cases k <;> exact .idle _ _ _ rfl rfl (fun _ => rfl) rfl rfl rfl
  | startWorkerSpawn k _ _ => cases k <;> exact .idle _ _ _ rfl rfl (fun _ => rfl) rfl rfl rfl
  | settleWorkerError k => cases k <;> exact .idle _ _ _ rfl rfl (fun _ => rfl) rfl rfl rfl
  | settleWorkerAdded k => cases k <;> exact .idle _ _ _ rfl rfl (fun _ => rfl) rfl rfl rfl
  | pushWait _ j _ ch q hat _ hch =>
    have hcontents : q.channel.contents = s.jobQ.channel.contents := by
      rw [hch]
      exact hat.contents_eq
    cases hat <;> exact .idle _ _ _ rfl rfl (fun _ => rfl) hcontents rfl rfl
  | pushRefuse _ j _ ch q hat hch =>
    have hcontents : q.channel.contents = s.jobQ.channel.contents := by
      rw [hch]
      exact hat.contents_eq
    cases hat <;> exact .idle _ _ _ rfl rfl (fun _ => rfl) hcontents rfl rfl
  | pushAcceptFixed _ j _ ch q u hat _ _ hch =>
    have hcontents : q.channel.contents = s.jobQ.channel.contents ++ [j] := by
      rw [hch, ← hat.contents_eq]
    cases hat <;> exact .queue _ _ _ _ rfl rfl (fun _ => rfl) (fun _ => rfl) hcontents rfl rfl
  | pushAcceptCached _ j _ ch q u hat _ _ hch =>
    have hcontents : q.channel.contents = s.jobQ.channel.contents ++ [j] := by
      rw [hch, ← hat.contents_eq]
    cases hat <;> exact .queue _ _ _ _ rfl rfl (fun _ => rfl) (fun _ => rfl) hcontents rfl rfl
  | drainWait _ _ _ hat _ =>
    have hcontents := hat.contents_eq
    cases hat <;> exact .idle _ _ _ rfl rfl (fun _ => rfl) hcontents rfl rfl
  | drainReturn _ _ hat _ =>
    have hcontents := hat.contents_eq
    cases hat <;> exact .idle _ _ _ rfl rfl (fun _ => rfl) hcontents rfl rfl
  | drainDiscard _ _ hat _ =>
    have hcontents := hat.contents_eq
    cases hat <;> exact .idle _ _ _ rfl rfl (fun _ => rfl) hcontents rfl rfl
  | discardDone k _ => cases k <;> exact .idle _ _ _ rfl rfl (fun _ => rfl) rfl rfl rfl
  | discardNull k q _ hch => exact .idle _ _ _ rfl rfl (fun _ => rfl) (by rw [hch]) rfl rfl
  | discardJob k j rest q u hcons hch =>
    exact .discard k _ j (by simp only [hch]; exact hcons) rfl rfl
  | discardCancel k j => exact .cancel k j (hfresh j rfl)
  | awaitWait _ k hat _ => cases hat <;> exact .idle _ _ _ rfl rfl (fun _ => rfl) rfl rfl rfl
  | awaitPass _ k hat _ =>
    cases hat <;> cases k <;> exact .idle _ _ _ rfl rfl (fun _ => rfl) rfl rfl rfl
  | popWait _ _ _ ch q hat _ _ _ hch =>
    have hcontents : q.channel.contents = s.jobQ.channel.contents := by
      rw [hch]
      exact hat.contents_eq
    cases hat <;> exact .idle _ _ _ rfl rfl (fun _ => rfl) hcontents rfl rfl
  | popNull _ _ _ ch q hat _ _ hch =>
    have hcontents : q.channel.contents = s.jobQ.channel.contents := by
      rw [hch]
      exact hat.contents_eq
    cases hat <;> exact .idle _ _ _ rfl rfl (fun _ => rfl) hcontents rfl rfl
  | popJob _ _ _ ch q j rest u hat hcons hch =>
    have hcontents : s.jobQ.channel.contents = j :: q.channel.contents := by
      rw [hch, ← hat.contents_eq]
      exact hcons
    cases hat <;> exact .take _ _ j rfl (fun _ => rfl) hcontents rfl rfl
  | runJob j _ => exact .invoke j
  | skipJob j hskip => exact absurd (hfresh j rfl) hskip
  | finishJob p => exact .finish p
  | _ => exact .idle _ _ _ rfl rfl (fun _ => rfl) rfl rfl rfl

/-! ## Tokens -/

namespace ExecutorPc

theorem holds_of_isIdle {pc : ExecutorPc} (h : pc.isIdle = true) (p : JobParams) :
    pc.holds p = false := by
  cases pc with
  | workerRun j => cases h
  | workerBusy p => cases h
  | discardCancel k j => cases h
  | _ => rfl

theorem executes_of_isIdle {pc : ExecutorPc} (h : pc.isIdle = true) (p : JobParams) :
    pc.executes p = false := by
  cases pc with
  | workerBusy p => cases h
  | _ => rfl

theorem cancels_of_isIdle {pc : ExecutorPc} (h : pc.isIdle = true) (p : JobParams) :
    pc.cancels p = false := by
  cases pc with
  | discardCancel k j => cases h
  | _ => rfl

end ExecutorPc

theorem sum_new {p : ExecutorPc → Bool} (hp : p .workerPop = false) {s s' : ExecutorState}
    {t : ℕ} {o : Env} {pc pc' : ExecutorPc} {new : List ExecutorPc}
    (h : ExecutorMove s t o pc s' pc' new) : (new.map fun pc => (p pc).toNat).sum = 0 :=
  Channel.sum_of_forall_false fun pc hpc => (h.new_eq pc hpc).symm ▸ hp

/-- A job whose push succeeded is with one thread, in the queue, or finished. -/
theorem balanced_tokens (p : JobParams) :
    System.Balanced executorSystem ExecutorPc.Fresh (fun pc => (pc.holds p).toNat)
      (fun s => s.inQueue p + s.finished p) (fun s => s.log.count (.queued p)) where
  start t k := by cases k <;> rfl
  step {s t pc o s' pc' new} h hfresh hle := by
    have hmove := executorStep_move h
    rw [sum_new rfl hmove]
    simp only [ExecutorState.inQueue, ExecutorState.finished]
    cases hmove.jobs hfresh with
    | idle _ _ _ hpc hpc' _ hcontents hlog _ =>
      rw [hcontents, hlog, ExecutorPc.holds_of_isIdle hpc, ExecutorPc.holds_of_isIdle hpc']
      rfl
    | queue _ _ _ j hpc hpc' _ _ hcontents hlog _ =>
      rw [ExecutorPc.holds_of_isIdle hpc, ExecutorPc.holds_of_isIdle hpc', hcontents, hlog]
      have hevent : [ExecutorEvent.queued j.params].count (.queued p) = [j.params].count p := by
        simp [List.count_singleton]
      simp only [List.map_append, List.count_append, List.countP_append, hevent, List.map_cons,
        List.map_nil, List.countP_singleton, ExecutorEvent.outputs, ExecutorEvent.cancels,
        Bool.false_eq_true, if_false]
      omega
    | take _ _ j hpc _ hcons hlog _ =>
      rw [ExecutorPc.holds_of_isIdle hpc, hcons, hlog, List.map_cons, List.count_cons]
      by_cases hp : j.params = p
      · simp [ExecutorPc.holds, hp]
        omega
      · simp [ExecutorPc.holds, hp]
    | discard k _ j hcons hlog _ =>
      rw [hcons, hlog, List.map_cons, List.count_cons]
      by_cases hp : j.params = p
      · simp [ExecutorPc.holds, hp, ExecutorEvent.outputs, ExecutorEvent.cancels]
        omega
      · simp [ExecutorPc.holds, hp, ExecutorEvent.outputs, ExecutorEvent.cancels]
    | invoke j =>
      simp [ExecutorPc.holds, ExecutorEvent.outputs, ExecutorEvent.cancels]
    | finish p' =>
      obtain ⟨_, _, hframe⟩ := s.finishJob_frame p' o.output
      have hqueued : (s.finishJob p' o.output).log.count (.queued p) = s.log.count (.queued p) :=
        ExecutorState.countP_finishJob (fun _ _ => rfl) s p' o.output
      rw [hqueued, ExecutorState.countP_finishJob (fun _ _ => rfl),
        ExecutorState.countP_finishJob (fun _ _ => rfl), hframe]
      by_cases hp : p' = p
      · simp [ExecutorPc.holds, hp, ExecutorEvent.outputs, ExecutorEvent.cancels]
        omega
      · simp [ExecutorPc.holds, hp, ExecutorEvent.outputs, ExecutorEvent.cancels]
    | cancel k j hj =>
      obtain ⟨_, _, hframe⟩ := s.cancelJob_frame t j
      have hqueued : (s.cancelJob t j).log.count (.queued p) = s.log.count (.queued p) :=
        ExecutorState.countP_cancelJob_of_uncalled (fun _ _ => rfl) (fun _ => rfl) s t hj
      rw [hqueued,
        ExecutorState.countP_cancelJob_of_uncalled (fun _ _ => rfl) (fun _ => rfl) s t hj,
        ExecutorState.countP_cancelJob_of_uncalled (fun _ _ => rfl) (fun _ => rfl) s t hj, hframe]
      by_cases hp : j.params = p
      · simp [ExecutorPc.holds, hp, ExecutorEvent.outputs, ExecutorEvent.cancels]
        omega
      · simp [ExecutorPc.holds, hp, ExecutorEvent.outputs, ExecutorEvent.cancels]
  wake h := by
    have hwoken := executorWake_cases h
    simp only [ExecutorState.inQueue, hwoken.contents_eq]
    cases hwoken <;> rfl

/-- Every job that was queued belongs to a submission whose push succeeded. -/
theorem balanced_submitted (p : JobParams) :
    System.Balanced executorSystem ExecutorPc.Fresh (fun pc => (pc.submitted p).toNat)
      (fun _ => 0) (fun s => s.log.count (.queued p)) where
  start t k := by cases k <;> rfl
  step {s t pc o s' pc' new} h hfresh hle := by
    have hmove := executorStep_move h
    rw [sum_new rfl hmove]
    cases hmove.jobs hfresh with
    | idle _ _ _ _ _ hsame _ hlog _ => rw [hlog, hsame]
    | queue _ _ _ j _ _ hbefore hafter _ hlog _ =>
      rw [hbefore, hafter, hlog, List.count_append]
      by_cases hp : j.params = p
      · simp [hp]
      · simp [hp]
    | take _ _ j _ hbefore _ hlog _ => rw [hbefore, hlog]; rfl
    | discard k _ j _ hlog _ => rw [hlog, List.count_append]; rfl
    | invoke j => rw [List.count_append]; rfl
    | finish p' =>
      rw [List.count, ExecutorState.countP_finishJob (fun _ _ => rfl) s p' o.output]
      rfl
    | cancel k j hj =>
      rw [List.count,
        ExecutorState.countP_cancelJob_of_uncalled (fun _ _ => rfl) (fun _ => rfl) s t hj]
      rfl
  wake h := by cases executorWake_cases h <;> rfl

/-- Every call of a job function is still running or has returned. -/
theorem balanced_invoked (p : JobParams) :
    System.Balanced executorSystem ExecutorPc.Fresh (fun pc => (pc.executes p).toNat)
      (fun s => s.log.countP (ExecutorEvent.outputs p)) (fun s => s.log.count (.invoked p)) where
  start t k := by cases k <;> rfl
  step {s t pc o s' pc' new} h hfresh hle := by
    have hmove := executorStep_move h
    rw [sum_new rfl hmove]
    cases hmove.jobs hfresh with
    | idle _ _ _ hpc hpc' _ _ hlog _ =>
      rw [hlog, ExecutorPc.executes_of_isIdle hpc, ExecutorPc.executes_of_isIdle hpc']
      rfl
    | queue _ _ _ j hpc hpc' _ _ _ hlog _ =>
      rw [hlog, ExecutorPc.executes_of_isIdle hpc, ExecutorPc.executes_of_isIdle hpc',
        List.count_append, List.countP_append]
      rfl
    | take _ _ j hpc _ _ hlog _ => rw [hlog, ExecutorPc.executes_of_isIdle hpc]; rfl
    | discard k _ j _ hlog _ => rw [hlog, List.count_append, List.countP_append]; rfl
    | invoke j =>
      simp only [List.count_append, List.countP_append]
      by_cases hp : j.params = p
      · simp [hp, ExecutorPc.executes, ExecutorEvent.outputs]
      · simp [hp, ExecutorPc.executes, ExecutorEvent.outputs]
    | finish p' =>
      have hinvoked : (s.finishJob p' o.output).log.count (.invoked p) =
          s.log.count (.invoked p) :=
        ExecutorState.countP_finishJob (fun _ _ => rfl) s p' o.output
      rw [hinvoked, ExecutorState.countP_finishJob (fun _ _ => rfl)]
      by_cases hp : p' = p
      · simp [hp, ExecutorPc.executes, ExecutorEvent.outputs]
        omega
      · simp [hp, ExecutorPc.executes, ExecutorEvent.outputs]
    | cancel k j hj =>
      rw [List.count,
        ExecutorState.countP_cancelJob_of_uncalled (fun _ _ => rfl) (fun _ => rfl) s t hj,
        ExecutorState.countP_cancelJob_of_uncalled (fun _ _ => rfl) (fun _ => rfl) s t hj]
      rfl
  wake h := by cases executorWake_cases h <;> rfl

/-! ## Callbacks and promises -/

/-- The result of a promise, once it is ready. -/
def Promise.result? (p : Promise) : Option Ptr :=
  if p.outputResultReady then some p.outputResult else none

/-- A cancellation callback runs once for each cancellation, and a promise holds
    the value of the first job that ended with it, set once. -/
structure LogSound (s : ExecutorState) : Prop where
  callbacks : ∀ p, s.log.count (.cancellationCallback p) =
    if p.cancellationCallback = none then 0 else s.log.countP (ExecutorEvent.cancels p)
  sets : ∀ q, s.log.filterMap (ExecutorEvent.sets q) =
    ((s.log.filterMap (ExecutorEvent.finishes q)).head?).toList
  result : ∀ q, (s.promises q).result? = (s.log.filterMap (ExecutorEvent.finishes q)).head?

/-- A job that ends with `v` fulfils its promise, unless it is fulfilled already. -/
theorem promises_fulfil (s : ExecutorState) (promise v : Ptr) (ended : List ExecutorEvent)
    (hended : ∀ q, ended.filterMap (ExecutorEvent.finishes q) =
      if promise = some q then [v] else [])
    (hquiet : ∀ q, ended.filterMap (ExecutorEvent.sets q) = [])
    (hsets : ∀ q, s.log.filterMap (ExecutorEvent.sets q) =
      ((s.log.filterMap (ExecutorEvent.finishes q)).head?).toList)
    (hresult : ∀ q, (s.promises q).result? =
      (s.log.filterMap (ExecutorEvent.finishes q)).head?) (q : ℕ) :
    let s' := ExecutorState.fulfil { s with log := s.log ++ ended } promise v
    s'.log.filterMap (ExecutorEvent.sets q) =
        ((s'.log.filterMap (ExecutorEvent.finishes q)).head?).toList ∧
      (s'.promises q).result? = (s'.log.filterMap (ExecutorEvent.finishes q)).head? := by
  cases promise with
  | none =>
    simp [ExecutorState.fulfil, hended, hquiet, hsets, hresult]
  | some p =>
    by_cases hq : q = p
    · subst hq
      have hends : ended.filterMap (ExecutorEvent.finishes q) = [v] := by simp [hended]
      have hres := hresult q
      cases hready : (s.promises q).outputResultReady with
      | true =>
        -- the promise keeps its first result
        have hset := Promise.setPromisedResult_of_ready hready v
        simp only [Promise.result?, hready, if_true] at hres
        simp [ExecutorState.fulfil, hset, hends, hquiet, hsets, Promise.result?, hready, ← hres]
      | false =>
        simp only [Promise.result?, hready, Bool.false_eq_true, if_false] at hres
        have hnone := List.head?_eq_none_iff.mp hres.symm
        simp [ExecutorState.fulfil, Promise.setPromisedResult, Promise.result?, hready, hends,
          hquiet, hsets, hnone, ExecutorEvent.sets, ExecutorEvent.finishes]
    · have hends : ended.filterMap (ExecutorEvent.finishes q) = [] := by
        simp [hended, Ne.symm hq]
      have hlast : ∀ b : Bool, (if b = true then [ExecutorEvent.promiseSet p v] else []).filterMap
          (ExecutorEvent.finishes q) = [] ∧ (if b = true then [ExecutorEvent.promiseSet p v]
            else []).filterMap (ExecutorEvent.sets q) = [] := by
        intro b
        cases b
        · exact ⟨rfl, rfl⟩
        · simp [ExecutorEvent.finishes, ExecutorEvent.sets, Ne.symm hq]
      simp only [ExecutorState.fulfil, List.filterMap_append, hends, hquiet, (hlast _).1,
        (hlast _).2, List.append_nil, Function.update_of_ne hq]
      exact ⟨hsets q, hresult q⟩

theorem LogSound.of_quiet {s s' : ExecutorState} (hs : LogSound s) (events : List ExecutorEvent)
    (hlog : s'.log = s.log ++ events) (hpromises : s'.promises = s.promises)
    (hcallback : ∀ p, events.count (.cancellationCallback p) = 0)
    (hcancel : ∀ p, events.countP (ExecutorEvent.cancels p) = 0)
    (hfinish : ∀ q, events.filterMap (ExecutorEvent.finishes q) = [])
    (hset : ∀ q, events.filterMap (ExecutorEvent.sets q) = []) : LogSound s' where
  callbacks p := by
    simpa [hlog, hcallback, hcancel] using hs.callbacks p
  sets q := by
    simpa [hlog, hset, hfinish] using hs.sets q
  result q := by
    simpa [hlog, hpromises, hfinish] using hs.result q

theorem JobMove.logSound {s s' : ExecutorState} {t : ℕ} {o : Env} {pc pc' : ExecutorPc}
    (h : JobMove s t o pc s' pc') (hs : LogSound s) : LogSound s' := by
  cases h with
  | idle _ _ _ _ _ _ _ hlog hpromises =>
    refine hs.of_quiet [] ?_ hpromises (fun _ => rfl) (fun _ => rfl) (fun _ => rfl)
      fun _ => rfl
    rw [hlog, List.append_nil]
  | queue _ _ _ j _ _ _ _ _ hlog hpromises =>
    exact hs.of_quiet _ hlog hpromises (fun _ => rfl) (fun _ => rfl) (fun _ => rfl) fun _ => rfl
  | take _ _ j _ _ _ hlog hpromises =>
    refine hs.of_quiet [] ?_ hpromises (fun _ => rfl) (fun _ => rfl) (fun _ => rfl)
      fun _ => rfl
    rw [hlog, List.append_nil]
  | discard k _ j _ hlog hpromises =>
    exact hs.of_quiet _ hlog hpromises (fun _ => rfl) (fun _ => rfl) (fun _ => rfl) fun _ => rfl
  | invoke j =>
    exact hs.of_quiet _ rfl rfl (fun _ => rfl) (fun _ => rfl) (fun _ => rfl) fun _ => rfl
  | finish p =>
    have hends := promises_fulfil s p.promiseForOutput o.output [.output p o.output] ?_
      (fun _ => rfl) hs.sets hs.result
    · refine ⟨?_, fun q => (hends q).1, fun q => (hends q).2⟩
      intro p'
      have hcallback : (s.finishJob p o.output).log.count (.cancellationCallback p') =
          s.log.count (.cancellationCallback p') :=
        ExecutorState.countP_finishJob (fun _ _ => rfl) s p o.output
      have hcancel : (s.finishJob p o.output).log.countP (ExecutorEvent.cancels p') =
          s.log.countP (ExecutorEvent.cancels p') :=
        ExecutorState.countP_finishJob (fun _ _ => rfl) s p o.output
      rw [hcallback, hcancel]
      exact hs.callbacks p'
    · intro q
      by_cases hq : p.promiseForOutput = some q
      · simp [ExecutorEvent.finishes, hq]
      · simp [ExecutorEvent.finishes, hq]
  | cancel k j hj =>
    have hcancelled : j.cancel = some { j with state := .cancelled } := by simp [Job.cancel, hj]
    generalize hcalled : (if j.params.cancellationCallback = none then []
      else [ExecutorEvent.cancellationCallback j.params]) = called
    have hends := promises_fulfil s j.params.promiseForOutput none
      (called ++ [.cancelled t j.params]) ?_ ?_ hs.sets hs.result
    · have heq : s.cancelJob t j =
          ExecutorState.fulfil { s with log := s.log ++ (called ++ [.cancelled t j.params]) }
            j.params.promiseForOutput none := by
        simp only [ExecutorState.cancelJob, hcancelled, hcalled, List.append_assoc]
      refine ⟨?_, fun q => heq ▸ (hends q).1, fun q => heq ▸ (hends q).2⟩
      intro p
      have hcallback : (s.cancelJob t j).log.count (.cancellationCallback p) =
          s.log.count (.cancellationCallback p) + (if j.params.cancellationCallback = none then 0
            else (decide (j.params = p)).toNat) := by
        rw [List.count, ExecutorState.countP_cancelJob (fun _ _ => rfl) s t hj]
        have hevent : (ExecutorEvent.cancellationCallback j.params == .cancellationCallback p) =
            decide (j.params = p) := by
          by_cases hp : j.params = p <;> simp [hp]
        rw [hevent]
        split <;> rfl
      have hcancel : (s.cancelJob t j).log.countP (ExecutorEvent.cancels p) =
          s.log.countP (ExecutorEvent.cancels p) + (decide (j.params = p)).toNat :=
        ExecutorState.countP_cancelJob_of_uncalled (fun _ _ => rfl) (fun _ => rfl) s t hj
      rw [hcallback, hcancel, hs.callbacks p]
      by_cases hp : j.params = p
      · subst hp
        split <;> rfl
      · simp only [hp, decide_false, Bool.toNat_false, ite_self, Nat.add_zero]
    · intro q
      subst hcalled
      by_cases hq : j.params.promiseForOutput = some q
      · split <;> simp [List.filterMap_cons, ExecutorEvent.finishes, hq]
      · split <;> simp [List.filterMap_cons, ExecutorEvent.finishes, hq]
    · intro q
      subst hcalled
      split <;> rfl

/-! ## Discards -/

/-- The jobs that thread `t` discarded are cancelled, or it is about to cancel one. -/
def DiscardsCancelled (c : ExecutorConfig) : Prop :=
  ∀ t p, c.shared.log.count (.discarded t p) =
    c.shared.log.count (.cancelled t p) + ((c.pc? t).any (ExecutorPc.cancels p)).toNat

/-- What a move adds to the log about the discards of its own thread and of others. -/
theorem JobMove.discards {s s' : ExecutorState} {t : ℕ} {o : Env} {pc pc' : ExecutorPc}
    (h : JobMove s t o pc s' pc') (p : JobParams) :
    (∀ u, u ≠ t → s'.log.count (.discarded u p) = s.log.count (.discarded u p) ∧
      s'.log.count (.cancelled u p) = s.log.count (.cancelled u p)) ∧
    s'.log.count (.discarded t p) + s.log.count (.cancelled t p) + (pc.cancels p).toNat =
      s.log.count (.discarded t p) + s'.log.count (.cancelled t p) + (pc'.cancels p).toNat := by
  cases h with
  | idle _ _ _ hpc hpc' _ _ hlog _ =>
    rw [hlog, ExecutorPc.cancels_of_isIdle hpc, ExecutorPc.cancels_of_isIdle hpc']
    exact ⟨fun u _ => ⟨rfl, rfl⟩, rfl⟩
  | queue _ _ _ j hpc hpc' _ _ _ hlog _ =>
    rw [hlog, ExecutorPc.cancels_of_isIdle hpc, ExecutorPc.cancels_of_isIdle hpc']
    simp
  | take _ _ j hpc _ _ hlog _ =>
    rw [hlog, ExecutorPc.cancels_of_isIdle hpc]
    exact ⟨fun u _ => ⟨rfl, rfl⟩, rfl⟩
  | discard k _ j _ hlog _ =>
    rw [hlog]
    refine ⟨fun u hu => ?_, ?_⟩
    · simp [hu.symm]
    · by_cases hp : j.params = p
      · simp [hp, ExecutorPc.cancels]
        omega
      · simp [hp, ExecutorPc.cancels]
  | invoke j => simp [ExecutorPc.cancels]
  | finish p' =>
    have hdiscarded : ∀ u, (s.finishJob p' o.output).log.count (.discarded u p) =
        s.log.count (.discarded u p) := fun u =>
      ExecutorState.countP_finishJob (fun _ _ => rfl) s p' o.output
    have hcancelled : ∀ u, (s.finishJob p' o.output).log.count (.cancelled u p) =
        s.log.count (.cancelled u p) := fun u =>
      ExecutorState.countP_finishJob (fun _ _ => rfl) s p' o.output
    exact ⟨fun u _ => ⟨hdiscarded u, hcancelled u⟩, by rw [hdiscarded, hcancelled]; rfl⟩
  | cancel k j hj =>
    have hdiscarded : ∀ u, (s.cancelJob t j).log.count (.discarded u p) =
        s.log.count (.discarded u p) := fun u =>
      ExecutorState.countP_cancelJob_of_uncalled (fun _ _ => rfl) (fun _ => rfl) s t hj
    have hcancelled : ∀ u, (s.cancelJob t j).log.count (.cancelled u p) =
        s.log.count (.cancelled u p) + (decide (t = u ∧ j.params = p)).toNat := by
      intro u
      have hevent : (ExecutorEvent.cancelled t j.params == .cancelled u p) =
          decide (t = u ∧ j.params = p) := by
        by_cases hp : t = u ∧ j.params = p <;> simp [hp]
      rw [List.count,
        ExecutorState.countP_cancelJob_of_uncalled (fun _ _ => rfl) (fun _ => rfl) s t hj, hevent]
    refine ⟨fun u hu => ⟨hdiscarded u, ?_⟩, ?_⟩
    · simp [hcancelled, Ne.symm hu]
    · rw [hdiscarded, hcancelled]
      simp [ExecutorPc.cancels]
      omega

theorem DiscardsCancelled.move {c : ExecutorConfig} (hc : DiscardsCancelled c) {t : ℕ} {o : Env}
    {pc pc' : ExecutorPc} {s : ExecutorState} {new : List ExecutorPc} (hpc : c.pc? t = some pc)
    (hmove : ExecutorMove c.shared t o pc s pc' new) (hjobs : JobMove c.shared t o pc s pc') :
    DiscardsCancelled (c.move t s pc' new) := by
  intro u p
  obtain ⟨hothers, hown⟩ := hjobs.discards p
  by_cases hu : u = t
  · subst hu
    have hbefore := hc u p
    rw [hpc, Option.any_some] at hbefore
    rw [Config.pc?_move_self hpc, Option.any_some, Config.move_shared]
    omega
  · rw [Config.move_shared, (hothers u hu).1, (hothers u hu).2, hc u p]
    congr 2
    cases hq : c.pc? u with
    | some q => rw [Config.pc?_move_of_ne hu hq]
    | none =>
      cases hq' : (c.move t s pc' new).pc? u with
      | none => rfl
      | some q' =>
        obtain ⟨rfl, -⟩ | ⟨-, hold⟩ | ⟨-, hmem⟩ := Config.pc?_move_cases hq'
        · exact absurd rfl hu
        · rw [hq] at hold
          cases hold
        · rw [hmove.new_eq q' hmem]
          rfl

theorem DiscardsCancelled.push {c : ExecutorConfig} (hc : DiscardsCancelled c)
    {pc : ExecutorPc} (hpc : ∀ p, pc.cancels p = false) : DiscardsCancelled (c.push pc) := by
  intro t p
  rw [Config.push_shared, hc t p]
  congr 2
  cases hq : c.pc? t with
  | some q => rw [Config.pc?_push_of_pc? hq]
  | none =>
    cases hq' : (c.push pc).pc? t with
    | none => rfl
    | some q' =>
      obtain hold | ⟨-, rfl⟩ := Config.pc?_push_cases hq'
      · rw [hq] at hold
        cases hold
      · exact (hpc p).symm

/-! ## The invariant -/

structure JobsInv (c : ExecutorConfig) : Prop where
  created : JobsCreated c
  tokens : ∀ p, c.count (ExecutorPc.holds p) + (c.shared.inQueue p + c.shared.finished p) =
    c.shared.log.count (.queued p)
  submitted : ∀ p, c.count (ExecutorPc.submitted p) = c.shared.log.count (.queued p)
  invoked : ∀ p, c.count (ExecutorPc.executes p) +
    c.shared.log.countP (ExecutorEvent.outputs p) = c.shared.log.count (.invoked p)
  log : LogSound c.shared
  discards : DiscardsCancelled c

theorem start_fresh (t : ℕ) (k : ExecutorCall) : (executorSystem.start t k).Fresh := by
  cases k <;> exact nofun

/-- The thread that moves is at a job that can still be executed or cancelled. -/
theorem JobsCreated.fresh {c : ExecutorConfig} {a : Act ExecutorCall Env} {t : ℕ}
    {pc : ExecutorPc} {o : Env} (hc : JobsCreated c)
    (h : System.Moves executorSystem c a t pc o) : pc.Fresh := by
  obtain ⟨-, hpc⟩ | ⟨k, -, rfl⟩ := h
  · exact hc.threads t pc hpc
  · exact start_fresh t k

theorem JobsInv.next {c c' : ExecutorConfig} {a : Act ExecutorCall Env} (hc : JobsInv c)
    (h : executorSystem.next c a = some c') : JobsInv c' where
  created := hc.created.next h
  tokens p := (balanced_tokens p).next (hc.tokens p) h hc.created.threads start_fresh
  submitted p := (balanced_submitted p).next (hc.submitted p) h hc.created.threads start_fresh
  invoked p := (balanced_invoked p).next (hc.invoked p) h hc.created.threads start_fresh
  log := by
    refine System.Moves.stable (R := LogSound) h ?_ ?_ hc.log
    · exact fun hpc hs => ((executorStep_move hs).jobs (hc.created.fresh hpc)).logSound
    · intro t pc s hs hlog
      cases executorWake_cases hs <;> exact ⟨hlog.callbacks, hlog.sets, hlog.result⟩
  discards := by
    cases a with
    | call k o =>
      obtain ⟨pc, s, pc', new, hpc, hs, rfl⟩ := System.stepAt_cases h
      have hpush : DiscardsCancelled (c.push (executorSystem.start c.threads.length k)) :=
        hc.discards.push fun p => by cases k <;> rfl
      rw [Config.pc?_push_self] at hpc
      cases hpc
      exact hpush.move (Config.pc?_push_self c _) (executorStep_move hs)
        ((executorStep_move hs).jobs (start_fresh _ k))
    | step t o =>
      obtain ⟨pc, s, pc', new, hpc, hs, rfl⟩ := System.stepAt_cases h
      exact hc.discards.move hpc (executorStep_move hs)
        ((executorStep_move hs).jobs (hc.created.threads t pc hpc))
    | wake t =>
      obtain ⟨pc, s, hpc, hs, rfl⟩ := System.next_wake_cases h
      cases executorWake_cases hs <;> exact hc.discards

theorem ExecutorState.Initial.jobs {s : ExecutorState} (h : s.Initial) :
    JobsInv (executorInit s) where
  created := by
    refine ⟨?_, ?_⟩
    · simp only [executorInit, h.queue]
      exact fun j hj => absurd hj List.not_mem_nil
    · intro t pc hpc
      obtain ⟨rfl, rfl⟩ := executorInit_pc hpc
      intro j hj
      cases hj
  tokens p := by
    simp only [executorInit, ExecutorState.inQueue, ExecutorState.finished, h.queue, h.noLog]
    rfl
  submitted p := by
    simp only [executorInit, h.noLog]
    rfl
  invoked p := by
    simp only [executorInit, h.noLog]
    rfl
  log := by
    refine ⟨fun p => ?_, fun q => ?_, fun q => ?_⟩
    · simp [executorInit, h.noLog]
    · simp [executorInit, h.noLog]
    · simp [executorInit, h.noLog, h.noResult, Promise.result?, Promise.init]
  discards t p := by
    simp only [executorInit, h.noLog]
    cases t <;> rfl

theorem executor_jobs {s : ExecutorState} (hs : s.Initial)
    {ok : ExecutorConfig → Act ExecutorCall Env → Prop} {c : ExecutorConfig}
    (h : executorSystem.Reach ok (executorInit s) c) : JobsInv c :=
  h.invariant hs.jobs fun _ _ _ _ hc _ hn => hc.next hn

end BoomPar
