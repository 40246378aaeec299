-- SUMMARY: What each step of the executor's threads can do, said once, with the job queue seen as a channel.
import BoomPar.Executor

/-!
# Moves of the executor

One case for each branch of each critical section, guards included. The
invariants of the executor are proved from these cases and never unfold the
sections again.
-/

namespace BoomPar

open Monitor

/-- A thread is about to test the wait loop of a push of `j` on the channel `ch`. -/
inductive PushAt (s : ExecutorState) (t : ℕ) (o : Env) :
    ExecutorPc → Job → ℕ → Channel Job → Prop
  | call (p : JobParams) (timeout : ℕ) :
      PushAt s t o (.push p timeout) (.init p) timeout s.jobQ.channel
  | resume (j : Job) (timeout : ℕ) : t ∉ s.jobQ.channel.fullWait →
      PushAt s t o (.fullWait j timeout) j (leftOf timeout o.queue.remaining)
        s.jobQ.channel.resumeFull

/-- A worker is about to test the wait loop of a pop on the channel `ch`, which
    it leaves without a job if `quit`. -/
inductive PopAt (s : ExecutorState) (t : ℕ) (o : Env) :
    ExecutorPc → ℕ → Bool → Channel Job → Prop
  | call :
      PopAt s t o .workerPop s.emptyJobQueueWaitTimeOutInMicroSeconds
        (s.emptyJobQueueWaitTimeOutInMicroSeconds == nonBlocking) s.jobQ.channel
  | resume (timeout : ℕ) : t ∉ s.jobQ.channel.emptyWait →
      PopAt s t o (.workerWait timeout) (leftOf timeout o.queue.remaining)
        (o.queue.waitError || leftOf timeout o.queue.remaining == nonBlocking)
        s.jobQ.channel.resumeEmpty

/-- A thread is about to test the wait loop for the workers. -/
inductive AwaitAt (s : ExecutorState) (t : ℕ) (k : Waiter) : ExecutorPc → Prop
  | call : AwaitAt s t k (.waitTest k)
  | resume : t ∉ s.activeWorkerCountUntilZeroWait → AwaitAt s t k (.waiting k)

/-- A thread is about to test the wait loop for the submitters. -/
inductive DrainAt (s : ExecutorState) (t : ℕ) (imm : Bool) : ExecutorPc → ExecutorState → Prop
  | close (q : JobQueue Job) : q.channel = s.jobQ.channel.close →
      DrainAt s t imm (.close imm) { s with jobQ := q, shutdownMutexLocked := false }
  | resume : t ∉ s.submittersCountUntilZeroWait → s.shutdownMutexLocked = false →
      DrainAt s t imm (.drain imm) s

inductive ExecutorMove (s : ExecutorState) (t : ℕ) (o : Env) :
    ExecutorPc → ExecutorState → ExecutorPc → List ExecutorPc → Prop
  | newExecutorCreate (i : ℕ) : s.type = .fixedThreadCountExecutor → i < s.workerCountLimit →
      ExecutorMove s t o (.newExecutor i) s (.createWorker (.newExecutor i)) []
  | newExecutorReturn (i : ℕ) :
      ¬(s.type = .fixedThreadCountExecutor ∧ i < s.workerCountLimit) →
      ExecutorMove s t o (.newExecutor i) { s with isNew := false } (.returned .newExecutor) []
  | createWorkerAdmit (k : Creator) : s.activeWorkerCount < s.workerCountLimit →
      ExecutorMove s t o (.createWorker k)
        { s with activeWorkerCount := s.activeWorkerCount + 1 } (.startWorker k) []
  | createWorkerRefuse (k : Creator) : s.workerCountLimit ≤ s.activeWorkerCount →
      ExecutorMove s t o (.createWorker k) s k.continue []
  | startWorkerFail (k : Creator) :
      (s.emptyJobQueueWaitTimeOutInMicroSeconds = nonBlocking ∨ o.threadError = true) →
      ExecutorMove s t o (.startWorker k) s (.settleWorker k true) []
  | startWorkerSpawn (k : Creator) :
      s.emptyJobQueueWaitTimeOutInMicroSeconds ≠ nonBlocking → o.threadError = false →
      ExecutorMove s t o (.startWorker k) s (.settleWorker k false) [.workerPop]
  | settleWorkerError (k : Creator) :
      ExecutorMove s t o (.settleWorker k true) s.decrementActiveWorkerCount k.continue []
  | settleWorkerAdded (k : Creator) :
      ExecutorMove s t o (.settleWorker k false) s k.continue []
  | submitRefuse (p : JobParams) (timeout : ℕ) : s.isNew = false →
      s.shutdownMutexLocked = false → s.shutdownRequested = true →
      ExecutorMove s t o (.enterSubmit p timeout) s (.returned (.submit p false)) []
  | submitAdmit (p : JobParams) (timeout : ℕ) : s.isNew = false →
      s.shutdownMutexLocked = false → s.shutdownRequested = false →
      ExecutorMove s t o (.enterSubmit p timeout)
        { s with submittersCount := s.submittersCount + 1 } (.push p timeout) []
  | pushNull (p : JobParams) (timeout : ℕ) :
      (p.jobFunction = none ∨ o.allocated = false) →
      ExecutorMove s t o (.push p timeout) s (.leaveSubmit p false) []
  | pushWait (pc : ExecutorPc) (j : Job) (timeout : ℕ) (ch : Channel Job) (q : JobQueue Job) :
      PushAt s t o pc j timeout ch → ch.closed = false →
      q.channel = { ch with fullWait := ch.fullWait.wait t, fullCount := ch.fullCount + 1 } →
      ExecutorMove s t o pc { s with jobQ := q } (.fullWait j timeout) []
  | pushRefuse (pc : ExecutorPc) (j : Job) (timeout : ℕ) (ch : Channel Job) (q : JobQueue Job) :
      PushAt s t o pc j timeout ch → q.channel = ch →
      ExecutorMove s t o pc { s with jobQ := q } (.leaveSubmit j.params false) []
  | pushAcceptFixed (pc : ExecutorPc) (j : Job) (timeout : ℕ) (ch : Channel Job)
      (q : JobQueue Job) (u : ℕ) :
      PushAt s t o pc j timeout ch → ch.closed = false →
      s.type = .fixedThreadCountExecutor →
      q.channel = { ch with
        contents := ch.contents ++ [j]
        emptyWait := ch.emptyWait.signalIf (0 < ch.emptyCount) u } →
      ExecutorMove s t o pc { s with jobQ := q, log := s.log ++ [.queued j.params] }
        (.leaveSubmit j.params true) []
  | pushAcceptCached (pc : ExecutorPc) (j : Job) (timeout : ℕ) (ch : Channel Job)
      (q : JobQueue Job) (u : ℕ) :
      PushAt s t o pc j timeout ch → ch.closed = false →
      s.type = .cachedThreadPoolExecutor →
      q.channel = { ch with
        contents := ch.contents ++ [j]
        emptyWait := ch.emptyWait.signalIf (0 < ch.emptyCount) u } →
      ExecutorMove s t o pc { s with jobQ := q, log := s.log ++ [.queued j.params] }
        (.readWaiting j.params) []
  | readWaitingNone (p : JobParams) : s.jobQ.channel.emptyCount = 0 →
      ExecutorMove s t o (.readWaiting p) s (.readEmpty p) []
  | readWaitingSome (p : JobParams) : 0 < s.jobQ.channel.emptyCount →
      ExecutorMove s t o (.readWaiting p) s (.leaveSubmit p true) []
  | readEmptyNone (p : JobParams) : s.jobQ.channel.contents = [] →
      ExecutorMove s t o (.readEmpty p) s (.leaveSubmit p true) []
  | readEmptySome (p : JobParams) : s.jobQ.channel.contents ≠ [] →
      ExecutorMove s t o (.readEmpty p) s (.createWorker (.submit p)) []
  | leaveSubmit (p : JobParams) (wasJobQueued : Bool) : s.shutdownMutexLocked = false →
      ExecutorMove s t o (.leaveSubmit p wasJobQueued) s.decrementSubmittersCount
        (.returned (.submit p wasJobQueued)) []
  | shutdownAgain (imm : Bool) : s.isNew = false → s.shutdownMutexLocked = false →
      s.shutdownRequested = true →
      ExecutorMove s t o (.enterShutdown imm) s (.returned (.shutdown false imm)) []
  | shutdownFirst (imm : Bool) : s.isNew = false → s.shutdownMutexLocked = false →
      s.shutdownRequested = false →
      ExecutorMove s t o (.enterShutdown imm)
        { s with shutdownRequested := true, shutdownMutexLocked := true } (.close imm) []
  | drainWait (pc : ExecutorPc) (imm : Bool) (s' : ExecutorState) : DrainAt s t imm pc s' →
      0 < s'.submittersCount →
      ExecutorMove s t o pc
        { s' with submittersCountUntilZeroWait := s'.submittersCountUntilZeroWait.wait t }
        (.drain imm) []
  | drainReturn (pc : ExecutorPc) (s' : ExecutorState) : DrainAt s t false pc s' →
      s'.submittersCount = 0 →
      ExecutorMove s t o pc s' (.returned (.shutdown true false)) []
  | drainDiscard (pc : ExecutorPc) (s' : ExecutorState) : DrainAt s t true pc s' →
      s'.submittersCount = 0 →
      ExecutorMove s t o pc s' (.discardTest .shutdown) []
  | discardDone (k : Discarder) : s.jobQ.channel.contents = [] →
      ExecutorMove s t o (.discardTest k) s k.continue []
  | discardMore (k : Discarder) : s.jobQ.channel.contents ≠ [] →
      ExecutorMove s t o (.discardTest k) s (.discardPop k) []
  | discardNull (k : Discarder) (q : JobQueue Job) : s.jobQ.channel.contents = [] →
      q.channel = s.jobQ.channel →
      ExecutorMove s t o (.discardPop k) { s with jobQ := q } (.discardTest k) []
  | discardJob (k : Discarder) (j : Job) (rest : List Job) (q : JobQueue Job) (u : ℕ) :
      s.jobQ.channel.contents = j :: rest →
      q.channel = { s.jobQ.channel with
        contents := rest
        fullWait := s.jobQ.channel.fullWait.signalIf
          (!s.jobQ.channel.closed && 0 < s.jobQ.channel.fullCount) u } →
      ExecutorMove s t o (.discardPop k)
        { s with jobQ := q, log := s.log ++ [.discarded t j.params] } (.discardCancel k j) []
  | discardCancel (k : Discarder) (j : Job) :
      ExecutorMove s t o (.discardCancel k j) (s.cancelJob t j) (.discardTest k) []
  | waitRefuse (k : Waiter) : s.isNew = false → s.shutdownMutexLocked = false →
      s.shutdownRequested = false →
      ExecutorMove s t o (.enterWait k) s (.returned (.wait k false)) []
  | waitAdmit (k : Waiter) : s.isNew = false → s.shutdownMutexLocked = false →
      s.shutdownRequested = true →
      ExecutorMove s t o (.enterWait k) s (.waitTest k) []
  | awaitWait (pc : ExecutorPc) (k : Waiter) : AwaitAt s t k pc → 0 < s.activeWorkerCount →
      ExecutorMove s t o pc
        { s with activeWorkerCountUntilZeroWait := s.activeWorkerCountUntilZeroWait.wait t }
        (.waiting k) []
  | awaitPass (pc : ExecutorPc) (k : Waiter) : AwaitAt s t k pc → s.activeWorkerCount = 0 →
      ExecutorMove s t o pc s k.continue []
  | popWait (pc : ExecutorPc) (timeout : ℕ) (quit : Bool) (ch : Channel Job) (q : JobQueue Job) :
      PopAt s t o pc timeout quit ch → ch.closed = false → ch.contents = [] → quit = false →
      q.channel = { ch with emptyWait := ch.emptyWait.wait t, emptyCount := ch.emptyCount + 1 } →
      ExecutorMove s t o pc { s with jobQ := q } (.workerWait timeout) []
  | popNull (pc : ExecutorPc) (timeout : ℕ) (quit : Bool) (ch : Channel Job) (q : JobQueue Job) :
      PopAt s t o pc timeout quit ch → ch.contents = [] → (ch.closed = true ∨ quit = true) →
      q.channel = ch →
      ExecutorMove s t o pc { s with jobQ := q } .workerLeave []
  | popJob (pc : ExecutorPc) (timeout : ℕ) (quit : Bool) (ch : Channel Job) (q : JobQueue Job)
      (j : Job) (rest : List Job) (u : ℕ) :
      PopAt s t o pc timeout quit ch → ch.contents = j :: rest →
      q.channel = { ch with
        contents := rest
        fullWait := ch.fullWait.signalIf (!ch.closed && 0 < ch.fullCount) u } →
      ExecutorMove s t o pc { s with jobQ := q } (.workerRun j) []
  | runJob (j : Job) : j.state = .created →
      ExecutorMove s t o (.workerRun j) { s with log := s.log ++ [.invoked j.params] }
        (.workerBusy j.params) []
  | skipJob (j : Job) : j.state ≠ .created →
      ExecutorMove s t o (.workerRun j) s .workerPop []
  | finishJob (p : JobParams) :
      ExecutorMove s t o (.workerBusy p) (s.finishJob p o.output) .workerPop []
  | workerLeave :
      ExecutorMove s t o .workerLeave s.decrementActiveWorkerCount (.returned .worker) []

theorem afterPush_move {s s' : ExecutorState} {t : ℕ} {o : Env} {pc pc' : ExecutorPc} {j : Job}
    {timeout : ℕ} {ch : Channel Job} {r : JobQueue Job × Option Bool} {new : List ExecutorPc}
    (hat : PushAt s t o pc j timeout ch) (hch : ch.Push t j r.1.channel r.2)
    (h : s.afterPush j timeout r = (s', pc', new)) : ExecutorMove s t o pc s' pc' new := by
  obtain ⟨q, r⟩ := r
  generalize hq : q.channel = ch' at hch
  cases hch with
  | wait hopen => cases h; exact .pushWait pc j timeout ch q hat hopen hq
  | refuse => cases h; exact .pushRefuse pc j timeout ch q hat hq
  | accept u hopen =>
    simp only [ExecutorState.afterPush] at h
    split at h
    · rename_i htype
      cases h
      exact .pushAcceptCached pc j timeout ch q u hat hopen htype hq
    · rename_i htype
      cases h
      have hfixed : s.type = .fixedThreadCountExecutor := by
        cases hs : s.type with
        | fixedThreadCountExecutor => rfl
        | cachedThreadPoolExecutor => exact absurd hs htype
      exact .pushAcceptFixed pc j timeout ch q u hat hopen hfixed hq

theorem afterPop_move {s s' : ExecutorState} {t : ℕ} {o : Env} {pc pc' : ExecutorPc}
    {timeout : ℕ} {quit : Bool} {ch : Channel Job} {r : JobQueue Job × Option (Option Job)}
    {new : List ExecutorPc} (hat : PopAt s t o pc timeout quit ch)
    (hch : ch.Pop t quit r.1.channel r.2) (h : s.afterPop timeout r = (s', pc', new)) :
    ExecutorMove s t o pc s' pc' new := by
  obtain ⟨q, r⟩ := r
  generalize hq : q.channel = ch' at hch
  cases hch with
  | wait hopen hnil hquit => cases h; exact .popWait pc timeout quit ch q hat hopen hnil hquit hq
  | nothing hnil hquit => cases h; exact .popNull pc timeout quit ch q hat hnil hquit hq
  | take j rest u hcons => cases h; exact .popJob pc timeout quit ch q j rest u hat hcons hq

theorem afterDiscardPop_move {s s' : ExecutorState} {t : ℕ} {o : Env} {pc' : ExecutorPc}
    {k : Discarder} {r : JobQueue Job × Option (Option Job)} {new : List ExecutorPc}
    (hch : s.jobQ.channel.Pop t true r.1.channel r.2)
    (h : s.afterDiscardPop t k r = (s', pc', new)) :
    ExecutorMove s t o (.discardPop k) s' pc' new := by
  obtain ⟨q, r⟩ := r
  generalize hq : q.channel = ch' at hch
  cases hch with
  | wait hopen hnil hquit => cases hquit
  | nothing hnil hquit => cases h; exact .discardNull k q hnil hq
  | take j rest u hcons => cases h; exact .discardJob k j rest q u hcons hq

theorem drainSubmitters_move {s s' s'' : ExecutorState} {t : ℕ} {o : Env} {pc pc' : ExecutorPc}
    {imm : Bool} {new : List ExecutorPc} (hat : DrainAt s t imm pc s')
    (h : quietly (s'.drainSubmitters t imm) = some (s'', pc', new)) :
    ExecutorMove s t o pc s'' pc' new := by
  simp only [quietly, ExecutorState.drainSubmitters] at h
  split at h
  · rename_i hpos
    cases h
    exact .drainWait pc imm s' hat hpos
  · rename_i hzero
    cases imm with
    | false => cases h; exact .drainReturn pc s' hat (Nat.eq_zero_of_not_pos hzero)
    | true => cases h; exact .drainDiscard pc s' hat (Nat.eq_zero_of_not_pos hzero)

theorem awaitWorkers_move {s s' : ExecutorState} {t : ℕ} {o : Env} {pc pc' : ExecutorPc}
    {k : Waiter} {new : List ExecutorPc} (hat : AwaitAt s t k pc)
    (h : quietly (s.awaitWorkers t k) = some (s', pc', new)) :
    ExecutorMove s t o pc s' pc' new := by
  simp only [quietly, ExecutorState.awaitWorkers] at h
  split at h
  · rename_i hpos
    cases h
    exact .awaitWait pc k hat hpos
  · rename_i hzero
    cases h
    exact .awaitPass pc k hat (Nat.eq_zero_of_not_pos hzero)

theorem executorStep_move {s s' : ExecutorState} {t : ℕ} {o : Env} {pc pc' : ExecutorPc}
    {new : List ExecutorPc} (h : executorStep s t pc o = some (s', pc', new)) :
    ExecutorMove s t o pc s' pc' new := by
  cases pc with
  | newExecutor i =>
    simp only [executorStep] at h
    split at h
    · rename_i hloop
      cases h
      exact .newExecutorCreate i hloop.1 hloop.2
    · rename_i hdone
      cases h
      exact .newExecutorReturn i hdone
  | createWorker k =>
    simp only [executorStep] at h
    split at h
    · rename_i hlt
      cases h
      exact .createWorkerAdmit k hlt
    · rename_i hle
      cases h
      exact .createWorkerRefuse k (Nat.le_of_not_lt hle)
  | startWorker k =>
    simp only [executorStep] at h
    split at h
    · rename_i herror
      cases h
      exact .startWorkerFail k herror
    · rename_i hok
      cases h
      rw [not_or] at hok
      exact .startWorkerSpawn k hok.1 (by simpa using hok.2)
  | settleWorker k error =>
    cases error with
    | true => cases h; exact .settleWorkerError k
    | false => cases h; exact .settleWorkerAdded k
  | enterSubmit p timeout =>
    simp only [executorStep] at h
    split at h
    · cases h
    · rename_i hfree
      simp only [not_or, Bool.not_eq_true] at hfree
      split at h
      · rename_i hrequested
        cases h
        exact .submitRefuse p timeout hfree.1 hfree.2 hrequested
      · rename_i hrequested
        cases h
        exact .submitAdmit p timeout hfree.1 hfree.2 (by simpa using hrequested)
  | push p timeout =>
    simp only [executorStep, Job.new] at h
    split at h
    · rename_i hnull
      cases h
      refine .pushNull p timeout ?_
      by_contra hok
      rw [if_neg hok] at hnull
      cases hnull
    · rename_i j hj
      obtain rfl := Job.eq_init_of_new hj
      exact afterPush_move (.call p timeout) (s.jobQ.push_channel t _ timeout false o.queue)
        (Option.some.inj h)
  | fullWait j timeout =>
    simp only [executorStep] at h
    split at h
    · cases h
    · rename_i hwoken
      exact afterPush_move (.resume j timeout hwoken)
        (s.jobQ.pushResume_channel t j timeout o.queue) (Option.some.inj h)
  | readWaiting p =>
    simp only [executorStep, JobQueue.getThreadsWaitingOnEmpty_eq] at h
    split at h
    · rename_i hzero
      cases h
      exact .readWaitingNone p hzero
    · rename_i hpos
      cases h
      exact .readWaitingSome p (Nat.pos_of_ne_zero hpos)
  | readEmpty p =>
    simp only [executorStep, JobQueue.isEmpty_iff] at h
    split at h
    · rename_i hnil
      cases h
      exact .readEmptyNone p hnil
    · rename_i hne
      cases h
      exact .readEmptySome p hne
  | leaveSubmit p wasJobQueued =>
    simp only [executorStep] at h
    split at h
    · cases h
    · rename_i hfree
      cases h
      exact .leaveSubmit p wasJobQueued (by simpa using hfree)
  | enterShutdown imm =>
    simp only [executorStep] at h
    split at h
    · cases h
    · rename_i hfree
      simp only [not_or, Bool.not_eq_true] at hfree
      split at h
      · rename_i hrequested
        cases h
        exact .shutdownAgain imm hfree.1 hfree.2 hrequested
      · rename_i hrequested
        cases h
        exact .shutdownFirst imm hfree.1 hfree.2 (by simpa using hrequested)
  | close imm => exact drainSubmitters_move (.close _ s.jobQ.close_channel) h
  | drain imm =>
    simp only [executorStep] at h
    split at h
    · cases h
    · rename_i hfree
      simp only [not_or, Bool.not_eq_true] at hfree
      exact drainSubmitters_move (.resume hfree.1 hfree.2) h
  | discardTest k =>
    simp only [executorStep, JobQueue.isEmpty_iff] at h
    split at h
    · rename_i hnil
      cases h
      exact .discardDone k hnil
    · rename_i hne
      cases h
      exact .discardMore k hne
  | discardPop k =>
    exact afterDiscardPop_move (s.jobQ.pop_channel t nonBlocking false o.queue) (Option.some.inj h)
  | discardCancel k j => cases h; exact .discardCancel k j
  | enterWait k =>
    simp only [executorStep] at h
    split at h
    · cases h
    · rename_i hfree
      simp only [not_or, Bool.not_eq_true] at hfree
      cases hrequested : s.shutdownRequested with
      | true =>
        rw [hrequested] at h
        cases h
        exact .waitAdmit k hfree.1 hfree.2 hrequested
      | false =>
        rw [hrequested] at h
        cases h
        exact .waitRefuse k hfree.1 hfree.2 hrequested
  | waitTest k => exact awaitWorkers_move .call h
  | waiting k =>
    simp only [executorStep] at h
    split at h
    · cases h
    · rename_i hwoken
      exact awaitWorkers_move (.resume hwoken) h
  | workerPop =>
    exact afterPop_move .call (s.jobQ.pop_channel t _ false o.queue) (Option.some.inj h)
  | workerWait timeout =>
    simp only [executorStep] at h
    split at h
    · cases h
    · rename_i hwoken
      exact afterPop_move (.resume timeout hwoken) (s.jobQ.popResume_channel t timeout o.queue)
        (Option.some.inj h)
  | workerRun j =>
    simp only [executorStep, Job.execute] at h
    split at h
    · rename_i hskip
      cases h
      refine .skipJob j fun hcreated => ?_
      rw [if_neg (not_not_intro hcreated)] at hskip
      cases hskip
    · rename_i j' hj'
      split at hj'
      · cases hj'
      · rename_i hcreated
        cases hj'
        cases h
        exact .runJob j (not_not.mp hcreated)
  | workerBusy p => cases h; exact .finishJob p
  | workerLeave => cases h; exact .workerLeave
  | returned r => cases h

/-- The wake-ups, by the condition variable that a thread leaves. -/
inductive ExecutorWoken (s : ExecutorState) (t : ℕ) : ExecutorState → Prop
  | fullWait (q : JobQueue Job) :
      q.channel = { s.jobQ.channel with fullWait := s.jobQ.channel.fullWait.erase t } →
      ExecutorWoken s t { s with jobQ := q }
  | emptyWait (q : JobQueue Job) :
      q.channel = { s.jobQ.channel with emptyWait := s.jobQ.channel.emptyWait.erase t } →
      ExecutorWoken s t { s with jobQ := q }
  | submitters :
      ExecutorWoken s t
        { s with submittersCountUntilZeroWait := s.submittersCountUntilZeroWait.erase t }
  | workers :
      ExecutorWoken s t
        { s with activeWorkerCountUntilZeroWait := s.activeWorkerCountUntilZeroWait.erase t }

theorem executorWake_cases {s s' : ExecutorState} {t : ℕ} {pc : ExecutorPc}
    (h : executorWake s t pc = some s') : ExecutorWoken s t s' := by
  cases pc with
  | fullWait j timeout => cases h; exact .fullWait _ (s.jobQ.wakeFull_channel t)
  | workerWait timeout => cases h; exact .emptyWait _ (s.jobQ.wakeEmpty_channel t)
  | drain imm => cases h; exact .submitters
  | waiting k => cases h; exact .workers
  | _ => cases h

theorem ExecutorWoken.contents_eq {s s' : ExecutorState} {t : ℕ} (h : ExecutorWoken s t s') :
    s'.jobQ.channel.contents = s.jobQ.channel.contents := by
  cases h with
  | fullWait q hq => simp only [hq]
  | emptyWait q hq => simp only [hq]
  | submitters => rfl
  | workers => rfl

theorem ExecutorWoken.closed_eq {s s' : ExecutorState} {t : ℕ} (h : ExecutorWoken s t s') :
    s'.jobQ.channel.closed = s.jobQ.channel.closed := by
  cases h with
  | fullWait q hq => simp only [hq]
  | emptyWait q hq => simp only [hq]
  | submitters => rfl
  | workers => rfl

end BoomPar
