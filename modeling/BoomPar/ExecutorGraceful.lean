-- SUMMARY: A graceful shutdown and whether it executes every accepted job: workers that still pop against workers that only count.
import BoomPar.ExecutorFate
import BoomPar.ExecutorGrowth

/-!
# Graceful shutdown

After a shutdown that discards nothing the workers drain the queue. A job can be
stranded only by a submission that leaves it to workers that have popped NULL
and have not left `active_worker_count` yet.
-/

namespace BoomPar

open Monitor

namespace ExecutorPc

/-- The submission finds `active_worker_count` at its limit. -/
def findsLimit (s : ExecutorState) : ExecutorPc → Bool
  | .createWorker (.submit _) => s.workerCountLimit ≤ s.activeWorkerCount
  | _ => false

/-- A condition wait without a timeout. -/
def waitsForever : ExecutorPc → Bool
  | .fullWait _ timeout => timeout = blocking
  | .workerWait timeout => timeout = blocking
  | _ => false

/-- The creation of the thread failed. -/
def failedToStart : ExecutorPc → Bool
  | .settleWorker _ error => error
  | _ => false

/-- A worker that waits for a job with a timeout. -/
def timesOut : ExecutorPc → Bool
  | .workerWait timeout => timeout ≠ blocking
  | _ => false

/-- A worker that popped NULL. -/
def isLeaving : ExecutorPc → Bool
  | .workerLeave => true
  | _ => false

/-- A worker of a fixed pool, or the thread that is to create the first one. -/
def staffs : ExecutorPc → Bool
  | .newExecutor i => i = 0
  | .createWorker (.newExecutor i) => i = 0
  | pc => pc.isLive

/-- A worker of a cached pool, or a submission that still decides about one. -/
def tends (pc : ExecutorPc) : Bool := pc.isLive || pc.isDeciding

/-- The first shutdown, if it is to discard the jobs. -/
def isImmediate : ExecutorPc → Bool
  | .close imm => imm
  | .drain imm => imm
  | .discardTest .shutdown => true
  | .discardPop .shutdown => true
  | .discardCancel .shutdown _ => true
  | .returned (.shutdown true imm) => imm
  | _ => false

/-- A deletion that has found a job to discard. -/
def discards : ExecutorPc → Bool
  | .discardPop .delete => true
  | .discardCancel .delete _ => true
  | _ => false

end ExecutorPc

/-- A condition wait returns an error on a timeout only. -/
def WaitsReliable (c : ExecutorConfig) : Act ExecutorCall Env → Prop
  | .step t o => ∀ pc ∈ c.pc? t, pc.waitsForever = true → o.queue.waitError = false
  | _ => True

instance (c : ExecutorConfig) : DecidablePred (WaitsReliable c)
  | .step _ _ => inferInstanceAs (Decidable (∀ pc ∈ _, _ → _))
  | .call _ _ => isTrue trivial
  | .wake _ => isTrue trivial

/-- Threads are created when asked for, waits are reliable, and nothing is deleted
    before it is shut down. -/
def GracefulUse (c : ExecutorConfig) (a : Act ExecutorCall Env) : Prop :=
  CreationSucceeds c a ∧ WaitsReliable c a ∧ DeletesShutDown c a

instance (c : ExecutorConfig) : DecidablePred (GracefulUse c) := fun _ =>
  inferInstanceAs (Decidable (_ ∧ _))

/-- A submission that finds the limit reached while jobs are queued finds a worker
    that has not popped NULL. -/
def LimitIsLive (c : ExecutorConfig) : Act ExecutorCall Env → Prop
  | .step t _ => ∀ pc ∈ c.pc? t, pc.findsLimit c.shared = true →
    c.shared.jobQ.channel.contents = [] ∨ 0 < c.count ExecutorPc.isLive
  | _ => True

instance (c : ExecutorConfig) : DecidablePred (LimitIsLive c)
  | .step _ _ => inferInstanceAs (Decidable (∀ pc ∈ _, _ → _))
  | .call _ _ => isTrue trivial
  | .wake _ => isTrue trivial

/-- The queue is closed and empty. -/
def Finished (s : ExecutorState) : Prop :=
  s.jobQ.channel.closed = true ∧ s.jobQ.channel.contents = []

/-! ## One move -/

section Move

variable {s s' : ExecutorState} {t : ℕ} {o : Env} {pc pc' : ExecutorPc} {new : List ExecutorPc}

theorem ExecutorMove.finished (h : ExecutorMove s t o pc s' pc' new) (hs : Finished s) :
    Finished s' :=
  ⟨h.channel.closed_of_closed hs.1, h.channel.contents_of_closed hs.1 hs.2⟩

theorem ExecutorWoken.finished (h : ExecutorWoken s t s') (hs : Finished s) : Finished s' :=
  ⟨h.closed_eq.trans hs.1, h.contents_eq.trans hs.2⟩

theorem ExecutorMove.failedToStart (h : ExecutorMove s t o pc s' pc' new)
    (hcreate : pc.startsWorker = true →
      s.emptyJobQueueWaitTimeOutInMicroSeconds ≠ nonBlocking ∧ o.threadError = false) :
    pc'.failedToStart = false := by
  cases h with
  | createWorkerRefuse k _ => cases k <;> rfl
  | startWorkerFail k herror => exact absurd herror (not_startError (hcreate rfl))
  | settleWorkerError k => cases k <;> rfl
  | settleWorkerAdded k => cases k <;> rfl
  | discardDone k _ => cases k <;> rfl
  | awaitPass _ k _ _ => cases k <;> rfl
  | _ => rfl

/-- A worker of a fixed pool waits without a timeout. -/
theorem PopAt.timeout_eq {timeout : ℕ} {quit : Bool} {ch : Channel Job}
    (h : PopAt s t o pc timeout quit ch)
    (hsettings : s.emptyJobQueueWaitTimeOutInMicroSeconds = blocking)
    (hpc : pc.timesOut = false)
    (hwait : pc.waitsForever = true → o.queue.waitError = false) :
    timeout = blocking ∧ quit = false := by
  cases h with
  | call =>
    rw [hsettings]
    exact ⟨rfl, rfl⟩
  | resume timeout _ =>
    obtain rfl : timeout = blocking := not_not.mp (of_decide_eq_false hpc)
    rw [hwait (decide_eq_true (Eq.refl blocking)), leftOf_blocking]
    exact ⟨rfl, rfl⟩

theorem ExecutorMove.timesOut (h : ExecutorMove s t o pc s' pc' new)
    (hsettings : s.emptyJobQueueWaitTimeOutInMicroSeconds = blocking)
    (hpc : pc.timesOut = false)
    (hwait : pc.waitsForever = true → o.queue.waitError = false) : pc'.timesOut = false := by
  cases h with
  | createWorkerRefuse k _ => cases k <;> rfl
  | settleWorkerError k => cases k <;> rfl
  | settleWorkerAdded k => cases k <;> rfl
  | discardDone k _ => cases k <;> rfl
  | awaitPass _ k _ _ => cases k <;> rfl
  | popWait _ timeout quit ch q hat _ _ _ _ =>
    obtain ⟨rfl, -⟩ := hat.timeout_eq hsettings hpc hwait
    rfl
  | _ => rfl

/-- A worker of a fixed pool leaves a closed empty queue. -/
theorem ExecutorMove.isLeaving (h : ExecutorMove s t o pc s' pc' new)
    (hsettings : s.emptyJobQueueWaitTimeOutInMicroSeconds = blocking)
    (hpc : pc.timesOut = false)
    (hwait : pc.waitsForever = true → o.queue.waitError = false)
    (hpc' : pc'.isLeaving = true) : Finished s' := by
  cases h with
  | createWorkerRefuse k _ => cases k <;> cases hpc'
  | settleWorkerError k => cases k <;> cases hpc'
  | settleWorkerAdded k => cases k <;> cases hpc'
  | discardDone k _ => cases k <;> cases hpc'
  | awaitPass _ k _ _ => cases k <;> cases hpc'
  | popNull _ timeout quit ch q hat hnil hquit hch =>
    obtain ⟨-, rfl⟩ := hat.timeout_eq hsettings hpc hwait
    simp only [Finished, hch]
    exact ⟨hquit.resolve_right nofun, hnil⟩
  | _ => cases hpc'

/-- A fixed pool keeps a worker, or is to get its first, until its queue is finished. -/
theorem ExecutorMove.staffed {other : Prop} (h : ExecutorMove s t o pc s' pc' new)
    (htype : s.type = .fixedThreadCountExecutor) (hlimit : 0 < s.workerCountLimit)
    (hcreate : pc.startsWorker = true →
      s.emptyJobQueueWaitTimeOutInMicroSeconds ≠ nonBlocking ∧ o.threadError = false)
    (hleave : pc'.isLeaving = true → Finished s')
    (hfull : s.workerCountLimit ≤ s.activeWorkerCount → (∃ k, pc = .createWorker k) →
      Finished s ∨ other)
    (hbefore : pc.staffs = true ∨ Finished s) :
    pc'.staffs = true ∨ (∃ q ∈ new, q.staffs = true) ∨ Finished s' ∨ other := by
  have hdone : pc.staffs = false → pc'.staffs = true ∨ (∃ q ∈ new, q.staffs = true) ∨
      Finished s' ∨ other := by
    intro hpc
    rw [hpc] at hbefore
    exact .inr (.inr (.inl (h.finished (hbefore.resolve_left nofun))))
  cases h with
  | newExecutorCreate i _ _ => exact hbefore.imp_right fun hs => .inr (.inl hs)
  | newExecutorReturn i hloop =>
    cases i with
    | zero => exact absurd ⟨htype, hlimit⟩ hloop
    | succ i => exact hdone rfl
  | createWorkerAdmit k _ => exact .inl rfl
  | createWorkerRefuse k hle => exact .inr (.inr (hfull hle ⟨k, rfl⟩))
  | startWorkerFail k herror => exact absurd herror (not_startError (hcreate rfl))
  | startWorkerSpawn k _ _ => exact .inr (.inl ⟨.workerPop, List.mem_singleton_self _, rfl⟩)
  | settleWorkerError k => exact hdone rfl
  | settleWorkerAdded k => exact hdone rfl
  | pushWait _ _ _ _ _ hat _ _ => exact hdone (by cases hat <;> rfl)
  | pushRefuse _ _ _ _ _ hat _ => exact hdone (by cases hat <;> rfl)
  | pushAcceptFixed _ _ _ _ _ _ hat _ _ _ => exact hdone (by cases hat <;> rfl)
  | pushAcceptCached _ _ _ _ _ _ hat _ _ _ => exact hdone (by cases hat <;> rfl)
  | drainWait _ _ _ hat _ => exact hdone (by cases hat <;> rfl)
  | drainReturn _ _ hat _ => exact hdone (by cases hat <;> rfl)
  | drainDiscard _ _ hat _ => exact hdone (by cases hat <;> rfl)
  | awaitWait _ _ hat _ => exact hdone (by cases hat <;> rfl)
  | awaitPass _ _ hat _ => exact hdone (by cases hat <;> rfl)
  | popWait _ _ _ _ _ hat _ _ _ _ => exact .inl rfl
  | popNull _ _ _ _ _ hat _ _ _ => exact .inr (.inr (.inl (hleave rfl)))
  | popJob _ _ _ _ _ _ _ _ hat _ _ => exact .inl rfl
  | runJob j _ => exact .inl rfl
  | skipJob j _ => exact .inl rfl
  | finishJob p => exact .inl rfl
  | _ => exact hdone rfl

/-- A job in the queue of a cached pool has a worker that will pop, or a submission
    that still decides. -/
theorem ExecutorMove.tended {other : Prop} (h : ExecutorMove s t o pc s' pc' new)
    (htype : s.type = .cachedThreadPoolExecutor)
    (hcreate : pc.startsWorker = true →
      s.emptyJobQueueWaitTimeOutInMicroSeconds ≠ nonBlocking ∧ o.threadError = false)
    (hfull : pc.findsLimit s = true → s.jobQ.channel.contents = [] ∨ other)
    (hwaiting : (∃ p, pc = .readWaiting p) → 0 < s.jobQ.channel.emptyCount → other)
    (hbefore : pc.tends = true ∨ s.jobQ.channel.contents = []) :
    pc'.tends = true ∨ (∃ q ∈ new, q.tends = true) ∨ s'.jobQ.channel.contents = [] ∨ other := by
  have hquiet : pc.tends = false → s'.jobQ.channel.contents = s.jobQ.channel.contents →
      pc'.tends = true ∨ (∃ q ∈ new, q.tends = true) ∨ s'.jobQ.channel.contents = [] ∨
        other := by
    intro hpc hcontents
    rw [hpc] at hbefore
    exact .inr (.inr (.inl (hcontents.trans (hbefore.resolve_left nofun))))
  cases h with
  | createWorkerAdmit k _ => exact .inl rfl
  | createWorkerRefuse k hle =>
    cases k with
    | newExecutor i => exact hquiet rfl rfl
    | submit p => exact .inr (.inr (hfull (decide_eq_true hle)))
  | startWorkerFail k herror => exact absurd herror (not_startError (hcreate rfl))
  | startWorkerSpawn k _ _ => exact .inr (.inl ⟨.workerPop, List.mem_singleton_self _, rfl⟩)
  | pushWait _ j _ ch q hat _ hch =>
    refine hquiet (by cases hat <;> rfl) ?_
    rw [hch, ← hat.contents_eq]
  | pushRefuse _ j _ ch q hat hch =>
    refine hquiet (by cases hat <;> rfl) ?_
    rw [hch, ← hat.contents_eq]
  | pushAcceptFixed _ j _ ch q u hat _ hfixed hch =>
    rw [htype] at hfixed
    cases hfixed
  | pushAcceptCached _ j _ ch q u hat _ _ hch => exact .inl rfl
  | readWaitingNone p _ => exact .inl rfl
  | readWaitingSome p hpos => exact .inr (.inr (.inr (hwaiting ⟨p, rfl⟩ hpos)))
  | readEmptyNone p hnil => exact .inr (.inr (.inl hnil))
  | readEmptySome p _ => exact .inl rfl
  | drainWait _ _ _ hat _ => exact hquiet (by cases hat <;> rfl) hat.contents_eq
  | drainReturn _ _ hat _ => exact hquiet (by cases hat <;> rfl) hat.contents_eq
  | drainDiscard _ _ hat _ => exact hquiet (by cases hat <;> rfl) hat.contents_eq
  | discardNull k q _ hch => exact hquiet rfl (congrArg Channel.contents hch)
  | discardJob k j rest q u hcons hch =>
    have hnil : s.jobQ.channel.contents = [] := hbefore.resolve_left nofun
    rw [hcons] at hnil
    cases hnil
  | discardCancel k j =>
    obtain ⟨_, _, hframe⟩ := s.cancelJob_frame t j
    refine hquiet rfl ?_
    rw [hframe]
  | awaitWait _ _ hat _ => exact hquiet (by cases hat <;> rfl) rfl
  | awaitPass _ _ hat _ => exact hquiet (by cases hat <;> rfl) rfl
  | popWait _ _ _ _ _ hat _ _ _ _ => exact .inl rfl
  | popNull _ _ _ ch q hat hnil _ hch =>
    refine .inr (.inr (.inl ?_))
    rw [hch, hnil]
  | popJob _ _ _ _ _ _ _ _ hat _ _ => exact .inl rfl
  | runJob j _ => exact .inl rfl
  | skipJob j _ => exact .inl rfl
  | finishJob p => exact .inl rfl
  | _ => exact hquiet rfl rfl

/-- A deletion discards what it finds queued. -/
theorem ExecutorMove.discards (h : ExecutorMove s t o pc s' pc' new)
    (hpc' : pc'.discards = true) :
    pc.discards = true ∨ (pc = .discardTest .delete ∧ s.jobQ.channel.contents ≠ []) := by
  cases h with
  | createWorkerRefuse k _ => cases k <;> cases hpc'
  | settleWorkerError k => cases k <;> cases hpc'
  | settleWorkerAdded k => cases k <;> cases hpc'
  | discardDone k _ => cases k <;> cases hpc'
  | discardMore k hne => cases k <;> [cases hpc'; exact .inr ⟨rfl, hne⟩]
  | discardJob k _ _ _ _ _ _ => cases k <;> [cases hpc'; exact .inl rfl]
  | awaitPass _ k _ _ => cases k <;> cases hpc'
  | _ => cases hpc'

theorem ExecutorMove.isImmediate (h : ExecutorMove s t o pc s' pc' new)
    (hpc : pc.isImmediate = true) : pc'.isImmediate = true := by
  cases h with
  | pushWait _ _ _ _ _ hat _ _ => cases hat <;> cases hpc
  | pushRefuse _ _ _ _ _ hat _ => cases hat <;> cases hpc
  | pushAcceptFixed _ _ _ _ _ _ hat _ _ _ => cases hat <;> cases hpc
  | pushAcceptCached _ _ _ _ _ _ hat _ _ _ => cases hat <;> cases hpc
  | drainWait _ imm _ hat _ => cases hat <;> exact hpc
  | drainReturn _ _ hat _ => cases hat <;> exact hpc
  | drainDiscard _ _ hat _ => cases hat <;> rfl
  | discardDone k _ => cases k <;> [rfl; cases hpc]
  | discardMore k _ => cases k <;> [rfl; cases hpc]
  | discardNull k _ _ _ => cases k <;> [rfl; cases hpc]
  | discardJob k _ _ _ _ _ _ => cases k <;> [rfl; cases hpc]
  | discardCancel k _ => cases k <;> [rfl; cases hpc]
  | awaitWait _ _ hat _ => cases hat <;> cases hpc
  | awaitPass _ _ hat _ => cases hat <;> cases hpc
  | popWait _ _ _ _ _ hat _ _ _ _ => cases hat <;> cases hpc
  | popNull _ _ _ _ _ hat _ _ _ => cases hat <;> cases hpc
  | popJob _ _ _ _ _ _ _ _ hat _ _ => cases hat <;> cases hpc
  | _ => first | exact hpc | cases hpc

/-- Only `discard_leftover_jobs` cancels jobs. -/
theorem JobMove.cancels (h : JobMove s t o pc s' pc') (p : JobParams) :
    s'.log.countP (ExecutorEvent.cancels p) = s.log.countP (ExecutorEvent.cancels p) ∨
      ∃ k j, pc = .discardCancel k j := by
  cases h with
  | idle _ _ _ _ _ _ _ hlog _ => exact .inl (by rw [hlog])
  | queue _ _ _ j _ _ _ _ _ hlog _ =>
    left
    rw [hlog, List.countP_append]
    rfl
  | take _ _ j _ _ _ hlog _ => exact .inl (by rw [hlog])
  | discard k _ j _ hlog _ =>
    left
    rw [hlog, List.countP_append]
    rfl
  | invoke j =>
    left
    rw [List.countP_append]
    rfl
  | finish p' => exact .inl (ExecutorState.countP_finishJob (fun _ _ => rfl) s p' o.output)
  | cancel k j _ => exact .inr ⟨k, j, rfl⟩

/-- A wait returns 1 when it has seen no worker. -/
theorem ExecutorMove.waited
    (h : ExecutorMove s t o pc s' (.returned (.wait .waitForAll true)) new) :
    s.activeWorkerCount = 0 ∧ s' = s := by
  generalize hpc' : ExecutorPc.returned (.wait .waitForAll true) = pc' at h
  cases h with
  | createWorkerRefuse k _ => cases k <;> cases hpc'
  | settleWorkerError k => cases k <;> cases hpc'
  | settleWorkerAdded k => cases k <;> cases hpc'
  | discardDone k _ => cases k <;> cases hpc'
  | awaitPass _ k _ hzero => exact ⟨hzero, rfl⟩
  | _ => cases hpc'

end Move

/-! ## The invariant -/

/-- The settings that `new_executor` makes. -/
structure Settings (s : ExecutorState) : Prop where
  limit : 0 < s.workerCountLimit
  fixed : s.type = .fixedThreadCountExecutor →
    s.emptyJobQueueWaitTimeOutInMicroSeconds = blocking

/-- What graceful use keeps, as long as a limit that is found is a live one. -/
structure GracefulInv (c : ExecutorConfig) : Prop extends LifeInv c where
  deletion : DeletionInv c
  settings : Settings c.shared
  created : System.After ExecutorPc.failedToStart (fun _ => False) c
  waits : System.After ExecutorPc.timesOut (fun s => s.type ≠ .fixedThreadCountExecutor) c
  leaves : System.After ExecutorPc.isLeaving
    (fun s => s.type = .fixedThreadCountExecutor → Finished s) c
  staffed : c.shared.type = .fixedThreadCountExecutor →
    System.Attended ExecutorPc.staffs Finished c
  tended : c.shared.type = .cachedThreadPoolExecutor →
    System.Attended ExecutorPc.tends (fun s => s.jobQ.channel.contents = []) c
  undiscarded : System.After ExecutorPc.discards (fun _ => False) c
  uncancelled : System.Attended ExecutorPc.isImmediate
    (fun s => ∀ p, s.log.countP (ExecutorEvent.cancels p) = 0) c

variable {c c' : ExecutorConfig} {a : Act ExecutorCall Env}

theorem finished_next (h : executorSystem.next c a = some c') (hf : Finished c.shared) :
    Finished c'.shared :=
  System.next_stable (R := Finished) h (fun hs => (executorStep_move hs).finished)
    (fun hs => (executorWake_cases hs).finished) hf

theorem ExecutorPc.isActive_of_isLive {pc : ExecutorPc} (h : pc.isLive = true) :
    pc.isActive = true := by
  cases pc <;> first | rfl | cases h

theorem ExecutorPc.of_staffs {pc : ExecutorPc} (h : pc.staffs = true) :
    pc.isActive = true ∨ pc.isConstructing = true := by
  cases pc with
  | newExecutor i => exact .inr rfl
  | createWorker k => cases k <;> [exact .inr rfl; cases h]
  | _ => exact .inl (ExecutorPc.isActive_of_isLive h)

theorem ExecutorPc.of_tends {pc : ExecutorPc} (h : pc.tends = true) :
    pc.isActive = true ∨ pc.isSubmitting = true := by
  obtain hlive | hdeciding := Bool.or_eq_true_iff.mp h
  · exact .inl (ExecutorPc.isActive_of_isLive hlive)
  · right
    cases pc with
    | readWaiting p => rfl
    | readEmpty p => rfl
    | createWorker k => cases k <;> [cases hdeciding; rfl]
    | _ => cases hdeciding

/-- A drained queue without workers is empty. -/
theorem GracefulInv.contents_eq_nil (hc : GracefulInv c) (hdrained : Drained c.shared)
    (hactive : c.shared.activeWorkerCount = 0) : c.shared.jobQ.channel.contents = [] := by
  cases htype : c.shared.type with
  | fixedThreadCountExecutor =>
    obtain ⟨t, pc, hpc, hp⟩ | hfinished := hc.staffed htype
    · obtain hworks | hbuilds := ExecutorPc.of_staffs hp
      · exact absurd hactive (hc.inv.tally_pos (k := .workers) hpc hworks).ne'
      · have hpos := hc.inv.tally_pos (k := .constructor) hpc hbuilds
        simp only [Tally.read, hc.phases.notNew hdrained.requested] at hpos
        cases hpos
    · exact hfinished.2
  | cachedThreadPoolExecutor =>
    obtain ⟨t, pc, hpc, hp⟩ | hnil := hc.tended htype
    · obtain hworks | hsubmits := ExecutorPc.of_tends hp
      · exact absurd hactive (hc.inv.tally_pos (k := .workers) hpc hworks).ne'
      · exact absurd hdrained.submitters (hc.inv.tally_pos (k := .submitters) hpc hsubmits).ne'
    · exact hnil

/-! ## One transition -/

variable {t : ℕ} {pc : ExecutorPc} {o : Env}

theorem CreationSucceeds.of_moves (hok : CreationSucceeds c a)
    (h : System.Moves executorSystem c a t pc o) (hp : pc.startsWorker = true) :
    c.shared.emptyJobQueueWaitTimeOutInMicroSeconds ≠ nonBlocking ∧ o.threadError = false := by
  obtain ⟨rfl, hpc⟩ := h.of_start (fun k => by cases k <;> rfl) hp
  exact hok pc hpc hp

theorem WaitsReliable.of_moves (hok : WaitsReliable c a)
    (h : System.Moves executorSystem c a t pc o) (hp : pc.waitsForever = true) :
    o.queue.waitError = false := by
  obtain ⟨rfl, hpc⟩ := h.of_start (fun k => by cases k <;> rfl) hp
  exact hok pc hpc hp

theorem LimitIsLive.of_moves (hok : LimitIsLive c a)
    (h : System.Moves executorSystem c a t pc o) (hp : pc.findsLimit c.shared = true) :
    c.shared.jobQ.channel.contents = [] ∨ 0 < c.count ExecutorPc.isLive := by
  obtain ⟨rfl, hpc⟩ := h.of_start (p := fun pc => pc.findsLimit c.shared)
    (fun k => by cases k <;> rfl) hp
  exact hok pc hpc hp

theorem DeletionInv.drained (hc : DeletionInv c) (hphases : Phases c) (hpc : c.pc? t = some pc)
    (hp : pc.isDeleting = true) : Drained c.shared :=
  hphases.drained_of_shutDown (hc.shutDown (Config.count_pos hpc hp))

theorem GracefulInv.timesOut (hc : GracefulInv c)
    (htype : c.shared.type = .fixedThreadCountExecutor)
    (h : System.Moves executorSystem c a t pc o) :
    pc.timesOut = false := by
  by_contra hp
  rw [Bool.not_eq_false] at hp
  obtain ⟨-, hpc⟩ := h.of_start (fun k => by cases k <;> rfl) hp
  exact hc.waits t pc hpc hp htype

/-- Where the limit of a fixed pool is reached, another worker has not left or the
    queue is finished. -/
theorem GracefulInv.staffed_of_full (hc : GracefulInv c)
    (htype : c.shared.type = .fixedThreadCountExecutor)
    (h : System.Moves executorSystem c a t pc o)
    (hfull : c.shared.workerCountLimit ≤ c.shared.activeWorkerCount)
    (hpc : ∃ k, pc = .createWorker k) :
    Finished c.shared ∨ ∃ u q, u ≠ t ∧ c.pc? u = some q ∧ q.staffs = true := by
  have hpos : 0 < c.count ExecutorPc.isActive := by
    have htally : c.count ExecutorPc.isActive = c.shared.activeWorkerCount :=
      hc.inv.tally .workers
    rw [htally]
    exact hc.settings.limit.trans_le hfull
  obtain ⟨u, q, hq, hactive⟩ := Config.exists_of_count_pos hpos
  have hne : u ≠ t := by
    rintro rfl
    obtain ⟨k, rfl⟩ := hpc
    obtain ⟨-, hpc⟩ | ⟨k', -, hstart⟩ := h
    · rw [hq] at hpc
      cases hpc
      cases hactive
    · cases k' <;> cases hstart
  cases q with
  | settleWorker k error =>
    cases error with
    | true => exact (hc.created u _ hq rfl).elim
    | false => cases hactive
  | workerLeave => exact .inl (hc.leaves u _ hq rfl htype)
  | startWorker k => exact .inr ⟨u, _, hne, hq, rfl⟩
  | workerPop => exact .inr ⟨u, _, hne, hq, rfl⟩
  | workerWait timeout => exact .inr ⟨u, _, hne, hq, rfl⟩
  | workerRun j => exact .inr ⟨u, _, hne, hq, rfl⟩
  | workerBusy p => exact .inr ⟨u, _, hne, hq, rfl⟩
  | _ => cases hactive

/-- What a thread finds another thread at, when it is not there itself. -/
theorem exists_other {p q : ExecutorPc → Bool} (hpos : 0 < c.count p)
    (hq : ∀ pc, p pc = true → q pc = true) (hpc : c.pc? t = some pc) (hp : p pc = false) :
    ∃ u r, u ≠ t ∧ c.pc? u = some r ∧ q r = true := by
  obtain ⟨u, r, hr, hpr⟩ := Config.exists_of_count_pos hpos
  refine ⟨u, r, ?_, hr, hq r hpr⟩
  rintro rfl
  rw [hr] at hpc
  cases hpc
  rw [hp] at hpr
  cases hpr

section Next

variable (hc : GracefulInv c) (h : executorSystem.next c a = some c')

include hc h

theorem GracefulInv.undiscarded_next : System.After ExecutorPc.discards (fun _ => False) c' := by
  refine hc.undiscarded.next h (fun t k => by cases k <;> rfl) (newWorker_of_step rfl) id ?_
  intro t pc o pc' new hpc hs _ hdiscards hp
  obtain hbefore | ⟨rfl, hne⟩ := (executorStep_move hs).discards hp
  · exact hdiscards hbefore
  · obtain ⟨-, hat⟩ := hpc.of_start (p := ExecutorPc.deletes) (fun k => by cases k <;> rfl) rfl
    have hactive := (hc.deletion.deletes t _ hat rfl).workers
    exact hne (hc.contents_eq_nil (hc.deletion.drained hc.phases hat rfl) hactive)

theorem GracefulInv.uncancelled_next : System.Attended ExecutorPc.isImmediate
    (fun s => ∀ p, s.log.countP (ExecutorEvent.cancels p) = 0) c' := by
  refine hc.uncancelled.next h ?_ ?_
  · intro t pc s hs hnone
    cases executorWake_cases hs <;> exact hnone
  · intro t pc o s pc' new hpc hs hbefore
    have hmove := executorStep_move hs
    obtain himm | hnone := hbefore
    · exact .inl (hmove.isImmediate himm)
    · by_cases hcancel : ∃ k j, pc = .discardCancel k j
      · obtain ⟨k, j, rfl⟩ := hcancel
        cases k with
        | shutdown => exact .inl (hmove.isImmediate rfl)
        | delete =>
          obtain ⟨-, hat⟩ := hpc.of_start (p := ExecutorPc.discards)
            (fun k => by cases k <;> rfl) rfl
          exact (hc.undiscarded t _ hat rfl).elim
      · refine .inr (.inr (.inl fun p => ?_))
        rw [((hmove.jobs (hc.jobs.created.fresh hpc)).cancels p).resolve_right hcancel]
        exact hnone p

variable (hok : GracefulUse c a)

include hok

theorem GracefulInv.created_next : System.After ExecutorPc.failedToStart (fun _ => False) c' := by
  refine hc.created.next h (fun t k => by cases k <;> rfl) (newWorker_of_step rfl) id ?_
  intro t pc o pc' new hpc hs _ _ hp
  rw [(executorStep_move hs).failedToStart (hok.1.of_moves hpc)] at hp
  cases hp

theorem GracefulInv.waits_next :
    System.After ExecutorPc.timesOut (fun s => s.type ≠ .fixedThreadCountExecutor) c' := by
  have hsame := settings_next h
  refine hc.waits.next h (fun t k => by cases k <;> rfl) (newWorker_of_step rfl) ?_ ?_
  · intro htype
    rw [hsame.1]
    exact htype
  · intro t pc o pc' new hpc hs _ _ hp htype
    rw [hsame.1] at htype
    have hpc' := (executorStep_move hs).timesOut (hc.settings.fixed htype)
      (hc.timesOut htype hpc) (hok.2.1.of_moves hpc)
    rw [hpc'] at hp
    cases hp

theorem GracefulInv.leaves_next : System.After ExecutorPc.isLeaving
    (fun s => s.type = .fixedThreadCountExecutor → Finished s) c' := by
  have hsame := settings_next h
  refine hc.leaves.next h (fun t k => by cases k <;> rfl) (newWorker_of_step rfl) ?_ ?_
  · intro hleft htype
    rw [hsame.1] at htype
    exact finished_next h (hleft htype)
  · intro t pc o pc' new hpc hs _ _ hp htype
    rw [hsame.1] at htype
    exact (executorStep_move hs).isLeaving (hc.settings.fixed htype) (hc.timesOut htype hpc)
      (hok.2.1.of_moves hpc) hp

theorem GracefulInv.staffed_next (htype : c.shared.type = .fixedThreadCountExecutor) :
    System.Attended ExecutorPc.staffs Finished c' := by
  refine (hc.staffed htype).next h ?_ ?_
  · exact fun hs => (executorWake_cases hs).finished
  · intro t pc o s pc' new hpc hs hbefore
    refine (executorStep_move hs).staffed htype hc.settings.limit (hok.1.of_moves hpc) ?_
      (hc.staffed_of_full htype hpc) hbefore
    exact (executorStep_move hs).isLeaving (hc.settings.fixed htype) (hc.timesOut htype hpc)
      (hok.2.1.of_moves hpc)

theorem GracefulInv.tended_next (htype : c.shared.type = .cachedThreadPoolExecutor)
    (hlive : LimitIsLive c a) :
    System.Attended ExecutorPc.tends (fun s => s.jobQ.channel.contents = []) c' := by
  have htends : ∀ pc : ExecutorPc, pc.isLive = true → pc.tends = true := fun pc hp => by
    rw [ExecutorPc.tends, hp, Bool.true_or]
  refine (hc.tended htype).next h ?_ ?_
  · exact fun hs hnil => (executorWake_cases hs).contents_eq.trans hnil
  · intro t pc o s pc' new hpc hs hbefore
    refine (executorStep_move hs).tended htype (hok.1.of_moves hpc) ?_ ?_ hbefore
    · intro hfull
      obtain ⟨-, hat⟩ := hpc.of_start (p := fun pc => pc.findsLimit c.shared)
        (fun k => by cases k <;> rfl) hfull
      refine (hlive.of_moves hpc hfull).imp_right fun hpos => exists_other hpos htends hat ?_
      cases pc with
      | createWorker k => rfl
      | _ => cases hfull
    · rintro ⟨p, rfl⟩ hpos
      obtain ⟨-, hat⟩ := hpc.of_start (p := ExecutorPc.isDeciding) (fun k => by cases k <;> rfl) rfl
      rw [← hc.inv.queue.emptyCount] at hpos
      refine exists_other hpos (fun pc hp => htends pc ?_) hat rfl
      cases pc with
      | workerWait timeout => rfl
      | _ => cases hp

theorem GracefulInv.next (hlive : LimitIsLive c a) : GracefulInv c' where
  toLifeInv := hc.toLifeInv.next h
  deletion := hc.deletion.next hc.inv hc.phases hok.2.2 h
  settings := by
    obtain ⟨htype, hlimit, htimeout⟩ := settings_next h
    refine ⟨hlimit ▸ hc.settings.limit, ?_⟩
    rw [htype, htimeout]
    exact hc.settings.fixed
  created := hc.created_next h hok
  waits := hc.waits_next h hok
  leaves := hc.leaves_next h hok
  staffed htype := hc.staffed_next h hok ((settings_next h).1 ▸ htype)
  tended htype := hc.tended_next h hok ((settings_next h).1 ▸ htype) hlive
  undiscarded := hc.undiscarded_next h
  uncancelled := hc.uncancelled_next h

end Next

theorem ExecutorState.Initial.graceful {s : ExecutorState} (hs : s.Initial) :
    GracefulInv (executorInit s) where
  toLifeInv := hs.life
  deletion := deletion_init s
  settings := ⟨hs.limit, hs.fixed⟩
  created t pc hpc hp := by
    obtain ⟨rfl, rfl⟩ := executorInit_pc hpc
    cases hp
  waits t pc hpc hp := by
    obtain ⟨rfl, rfl⟩ := executorInit_pc hpc
    cases hp
  leaves t pc hpc hp := by
    obtain ⟨rfl, rfl⟩ := executorInit_pc hpc
    cases hp
  staffed _ := .inl ⟨0, _, rfl, rfl⟩
  tended _ := .inr (congrArg Channel.contents hs.queue)
  undiscarded t pc hpc hp := by
    obtain ⟨rfl, rfl⟩ := executorInit_pc hpc
    cases hp
  uncancelled := by
    right
    intro p
    rw [executorInit, hs.noLog]
    rfl

theorem executor_graceful {s : ExecutorState} (hs : s.Initial)
    (h : executorSystem.Reach (fun c a => GracefulUse c a ∧ LimitIsLive c a) (executorInit s) c) :
    GracefulInv c :=
  h.invariant hs.graceful fun _ _ _ _ hc hok hn => hc.next hn hok.1 hok.2

/-! ## After the wait -/

/-- A graceful shutdown returned to its first caller. -/
def ShutDownGracefully (c : ExecutorConfig) : Prop :=
  ∃ t, c.pc? t = some (.returned (.shutdown true false))

/-- The job queue is empty, every accepted job was executed and none cancelled. -/
structure AllExecuted (c : ExecutorConfig) : Prop where
  contents : c.shared.jobQ.channel.contents = []
  executed : ∀ t p, c.pc? t = some (.returned (.submit p true)) →
    c.shared.log.count (.invoked p) = 1 ∧ c.shared.log.countP (ExecutorEvent.outputs p) = 1
  uncancelled : ∀ p, c.shared.log.countP (ExecutorEvent.cancels p) = 0

/-- Whoever waited until no worker was left after the shutdown finds all executed. -/
def ExecutesAll (ok : ExecutorConfig → Act ExecutorCall Env → Prop) (s : ExecutorState) : Prop :=
  ∀ c₁ c₂ w, executorSystem.Reach ok (executorInit s) c₁ → ShutDownGracefully c₁ →
    executorSystem.Reach ok c₁ c₂ →
    c₁.pc? w ≠ some (.returned (.wait .waitForAll true)) →
    c₂.pc? w = some (.returned (.wait .waitForAll true)) → AllExecuted c₂

theorem ShutDownGracefully.drained (h : ShutDownGracefully c) (hphases : Phases c) :
    Drained c.shared := by
  obtain ⟨t, ht⟩ := h
  exact hphases.drained t _ ht rfl

/-- The first shutdown is not one that discards jobs. -/
theorem ShutDownGracefully.isImmediate (h : ShutDownGracefully c) (hinv : ExecutorInv c) {t : ℕ}
    {pc : ExecutorPc} (hpc : c.pc? t = some pc) : pc.isImmediate = false := by
  obtain ⟨u, hu⟩ := h
  by_contra himm
  rw [Bool.not_eq_false] at himm
  have hfirst : pc.isFirstShutdown = true := by
    cases pc with
    | discardTest k => cases k <;> [rfl; cases himm]
    | discardPop k => cases k <;> [rfl; cases himm]
    | discardCancel k j => cases k <;> [rfl; cases himm]
    | returned r =>
      cases r with
      | shutdown first imm => cases first <;> [cases himm; rfl]
      | _ => cases himm
    | close imm => rfl
    | drain imm => rfl
    | _ => cases himm
  obtain rfl := hinv.firstShutdown_unique hpc hu hfirst rfl
  rw [hpc] at hu
  cases hu
  cases himm

theorem GracefulInv.holds_eq_false (hc : GracefulInv c) (hshut : ShutDownGracefully c)
    (hactive : c.shared.activeWorkerCount = 0) (hpc : c.pc? t = some pc) (p : JobParams) :
    pc.holds p = false := by
  have hidle := hc.inv.idle hactive hpc
  cases pc with
  | workerRun j => cases hidle
  | workerBusy p' => cases hidle
  | discardCancel k j =>
    cases k with
    | shutdown => cases hshut.isImmediate hc.inv hpc
    | delete => exact (hc.undiscarded t _ hpc rfl).elim
  | _ => rfl

theorem GracefulInv.allExecuted (hc : GracefulInv c) (hshut : ShutDownGracefully c)
    (hactive : c.shared.activeWorkerCount = 0) : AllExecuted c := by
  have hnil := hc.contents_eq_nil (hshut.drained hc.phases) hactive
  have hcancel : ∀ p, c.shared.log.countP (ExecutorEvent.cancels p) = 0 := by
    obtain ⟨t, pc, hpc, himm⟩ | hnone := hc.uncancelled
    · rw [hshut.isImmediate hc.inv hpc] at himm
      cases himm
    · exact hnone
  refine ⟨hnil, ?_, hcancel⟩
  intro t p hpc
  have hqueued : c.shared.log.count (.queued p) = 1 := by
    rw [hc.toLifeInv.queued_eq hpc rfl]
    exact congrArg Bool.toNat (decide_eq_true rfl)
  have hholds : c.count (ExecutorPc.holds p) = 0 :=
    Config.count_eq_zero.mpr fun u pc hu => hc.holds_eq_false hshut hactive hu p
  have hexecutes : c.count (ExecutorPc.executes p) = 0 :=
    Config.count_eq_zero.mpr fun u pc hu =>
      ExecutorPc.executes_of_holds (hc.holds_eq_false hshut hactive hu p)
  have hempty : c.shared.inQueue p = 0 := by
    rw [ExecutorState.inQueue, hnil]
    rfl
  have htokens := hc.jobs.tokens p
  have hinvoked := hc.jobs.invoked p
  have hnone := hcancel p
  rw [ExecutorState.finished] at htokens
  omega

/-- Between a shutdown and the return of a wait the workers have left for good. -/
theorem quiescent_of_waited {s : ExecutorState} {ok : ExecutorConfig → Act ExecutorCall Env → Prop}
    {c₁ c₂ : ExecutorConfig} {w : ℕ} (hs : s.Initial)
    (h₁ : executorSystem.Reach ok (executorInit s) c₁) (hdrained : Drained c₁.shared)
    (hw : c₁.pc? w ≠ some (.returned (.wait .waitForAll true)))
    (h₂ : executorSystem.Reach ok c₁ c₂) : Drained c₂.shared ∧
      (c₂.pc? w = some (.returned (.wait .waitForAll true)) → Quiescent c₂.shared) := by
  refine h₂.invariant (P := fun c => Drained c.shared ∧
    (c.pc? w = some (.returned (.wait .waitForAll true)) → Quiescent c.shared))
    ⟨hdrained, fun hpc => absurd hpc hw⟩ ?_
  intro c a c' hreach ⟨hdrained, hquiet⟩ _ hn
  have hlife := executor_life hs (h₁.trans hreach)
  refine ⟨drained_next hn hdrained, ?_⟩
  intro hpc'
  by_cases hold : c.pc? w = some (.returned (.wait .waitForAll true))
  · exact quiescent_next hlife.inv hlife.phases hn (hquiet hold)
  · obtain ⟨pc, o, new, -, hstep⟩ := System.next_moved_of_notMem hn hpc' hold fun hs hmem => by
      cases (executorStep_move hs).new_eq _ hmem
    obtain ⟨hactive, hshared⟩ := (executorStep_move hstep).waited
    rw [hshared]
    exact ⟨hdrained.requested, hactive, hdrained.submitters⟩

theorem ShutDownGracefully.next (hc : ShutDownGracefully c)
    (h : executorSystem.next c a = some c') : ShutDownGracefully c' := by
  obtain ⟨t, ht⟩ := hc
  exact ⟨t, System.next_pc?_of_stuck h (fun _ _ => rfl) ht⟩

/-- When no submission leaves its job to workers that have popped NULL, a graceful
    shutdown executes every accepted job. -/
theorem graceful_shutdown_executes_all {type : ExecutorType} {limit : ℕ} {cap : WithTop ℕ}
    {timeout : ℕ} {allocated : Bool} {s : ExecutorState}
    (hnew : ExecutorState.new type limit cap timeout allocated = some s) :
    ExecutesAll (fun c a => GracefulUse c a ∧ LimitIsLive c a) s := by
  intro c₁ c₂ w h₁ hshut h₂ hw hw'
  have hs := ExecutorState.initial_of_new hnew
  have hdrained := hshut.drained (executor_life hs h₁).phases
  obtain ⟨-, hquiet⟩ := quiescent_of_waited hs h₁ hdrained hw h₂
  have hshut' : ShutDownGracefully c₂ :=
    h₂.invariant hshut fun _ _ _ _ hc _ hn => hc.next hn
  exact (executor_graceful hs (h₁.trans h₂)).allExecuted hshut' (hquiet hw').workers

/-- The worker executes a job, times out, and leaves a pool that is shut down. -/
def drainedPool : ExecutorConfig :=
  executorSystem.checkedRun (fun c a => GracefulUse c a ∧ LimitIsLive c a)
    (executorInit cachedPool)
    ([.step 0 (.smooth none), .call (.submit (some 0) none none none blocking) (.smooth none)] ++
      List.replicate 7 (.step 1 (.smooth none)) ++ List.replicate 4 (.step 2 (.smooth none)) ++
      [.wake 2, .step 2 ⟨⟨0, true, 0, none⟩, true, false, none⟩, .step 2 (.smooth none),
        .call (.shutdown false) (.smooth none), .step 3 (.smooth none)]) (by decide)

/-- A wait on the pool returns. -/
def waitedPool : ExecutorConfig :=
  executorSystem.checkedRun (fun c a => GracefulUse c a ∧ LimitIsLive c a) drainedPool
    [.call .waitForAll (.smooth none), .step 4 (.smooth none)] (by decide)

theorem graceful_shutdown_executes_all_waitedPool : AllExecuted waitedPool :=
  graceful_shutdown_executes_all (Option.some_get _).symm drainedPool waitedPool 4
    (.checkedRun _ _ _ _) ⟨3, by decide⟩ (.checkedRun _ _ _ _) (by decide) (by decide)

/-- A job is submitted while the only worker has popped NULL and still counts, and
    the pool is shut down. -/
def strandedPool : ExecutorConfig :=
  executorSystem.checkedRun GracefulUse (executorInit cachedPool)
    ([.step 0 (.smooth none), .call (.submit (some 0) none none none blocking) (.smooth none)] ++
      List.replicate 7 (.step 1 (.smooth none)) ++ List.replicate 4 (.step 2 (.smooth none)) ++
      [.wake 2, .step 2 ⟨⟨0, true, 0, none⟩, true, false, none⟩,
        .call (.submit (some 0) none none none blocking) (.smooth none)] ++
      List.replicate 5 (.step 3 (.smooth none)) ++
      [.step 2 (.smooth none), .call (.shutdown false) (.smooth none), .step 4 (.smooth none)])
    (by decide)

/-- The wait on the pool returns all the same. -/
def abandonedPool : ExecutorConfig :=
  executorSystem.checkedRun GracefulUse strandedPool
    [.call .waitForAll (.smooth none), .step 5 (.smooth none)] (by decide)

/-- A job is queued when the wait has returned. -/
theorem graceful_shutdown_strands_job : ¬ExecutesAll GracefulUse cachedPool := by
  intro h
  have hall := h strandedPool abandonedPool 5 (.checkedRun _ _ _ _) ⟨4, by decide⟩
    (.checkedRun _ _ _ _) (by decide) (by decide)
  have hnil := hall.contents
  revert hnil
  decide

end BoomPar
