-- SUMMARY: The counters of the executor against its threads: workers, submitters, the threads in the job queue, and the waiters for zero.
import BoomPar.ExecutorMoves

/-!
# Counters of the executor

Each counter is the number of threads at certain control states. The balances
hold for any interleaving and any failures of the creation of threads.
-/

namespace BoomPar

open Monitor

namespace ExecutorPc

/-- A worker in creation, or created and not past the decrement in `clean_up`; a
    creation that failed counts until its creator takes it back. -/
def isActive : ExecutorPc → Bool
  | .startWorker _ => true
  | .settleWorker _ error => error
  | .workerPop => true
  | .workerWait _ => true
  | .workerRun _ => true
  | .workerBusy _ => true
  | .workerLeave => true
  | _ => false

/-- A call of `submit_job_executor` between its two sections of `shutdown_mutex`. -/
def isSubmitting : ExecutorPc → Bool
  | .push _ _ => true
  | .fullWait _ _ => true
  | .readWaiting _ => true
  | .readEmpty _ => true
  | .createWorker (.submit _) => true
  | .startWorker (.submit _) => true
  | .settleWorker (.submit _) _ => true
  | .leaveSubmit _ _ => true
  | _ => false

/-- A thread inside `new_executor`. -/
def isConstructing : ExecutorPc → Bool
  | .newExecutor _ => true
  | .createWorker (.newExecutor _) => true
  | .startWorker (.newExecutor _) => true
  | .settleWorker (.newExecutor _) _ => true
  | _ => false

/-- A thread that holds `shutdown_mutex` between two sections. -/
def holdsMutex : ExecutorPc → Bool
  | .close _ => true
  | _ => false

/-- The call of `shutdown_executor` that requested the shutdown, returned or not. -/
def isFirstShutdown : ExecutorPc → Bool
  | .close _ => true
  | .drain _ => true
  | .discardTest .shutdown => true
  | .discardPop .shutdown => true
  | .discardCancel .shutdown _ => true
  | .returned (.shutdown true _) => true
  | _ => false

def waitsForElement : ExecutorPc → Bool
  | .workerWait _ => true
  | _ => false

def waitsForRoom : ExecutorPc → Bool
  | .fullWait _ _ => true
  | _ => false

def waitsForSubmitters : ExecutorPc → Bool
  | .drain _ => true
  | _ => false

def waitsForWorkers : ExecutorPc → Bool
  | .waiting _ => true
  | _ => false

end ExecutorPc

/-! ## What jobs and promises leave alone -/

namespace ExecutorState

theorem fulfil_frame (s : ExecutorState) (promise : Ptr) (v : Ptr) :
    ∃ promises log, s.fulfil promise v = { s with promises := promises, log := log } := by
  cases promise with
  | none => exact ⟨_, _, rfl⟩
  | some p => exact ⟨_, _, rfl⟩

theorem finishJob_frame (s : ExecutorState) (p : JobParams) (v : Ptr) :
    ∃ promises log, s.finishJob p v = { s with promises := promises, log := log } :=
  fulfil_frame _ _ _

theorem cancelJob_frame (s : ExecutorState) (t : ℕ) (j : Job) :
    ∃ promises log, s.cancelJob t j = { s with promises := promises, log := log } := by
  unfold cancelJob
  split
  · exact ⟨_, _, rfl⟩
  · exact fulfil_frame _ _ _

end ExecutorState

/-! ## Balances -/

/-- What the executor counts, or holds once. -/
inductive Tally where
  | workers
  | submitters
  | constructor
  | mutex
  | shutdown
  deriving DecidableEq

/-- The threads behind a tally. -/
def Tally.counts : Tally → ExecutorPc → Bool
  | .workers => ExecutorPc.isActive
  | .submitters => ExecutorPc.isSubmitting
  | .constructor => ExecutorPc.isConstructing
  | .mutex => ExecutorPc.holdsMutex
  | .shutdown => ExecutorPc.isFirstShutdown

/-- The state that carries a tally. -/
def Tally.read : Tally → ExecutorState → ℕ
  | .workers => ExecutorState.activeWorkerCount
  | .submitters => ExecutorState.submittersCount
  | .constructor => fun s => s.isNew.toNat
  | .mutex => fun s => s.shutdownMutexLocked.toNat
  | .shutdown => fun s => s.shutdownRequested.toNat

theorem DrainAt.tally {s s' : ExecutorState} {t : ℕ} {imm : Bool} {pc : ExecutorPc}
    (h : DrainAt s t imm pc s') (k : Tally) (hle : (k.counts pc).toNat ≤ k.read s) :
    k.read s' + (k.counts pc).toNat = k.read s + (k.counts (.drain imm)).toNat := by
  cases h with
  | close q _ =>
    cases k with
    | mutex =>
      -- the thread that closes the queue holds the mutex, and releases it
      have hheld : s.shutdownMutexLocked = true := by
        cases hlocked : s.shutdownMutexLocked with
        | true => rfl
        | false =>
          simp only [Tally.read, hlocked] at hle
          cases hle
      simp only [Tally.read, hheld]
      rfl
    | _ => rfl
  | resume _ _ => rfl

theorem balanced_tally (k : Tally) :
    System.Balanced executorSystem (fun _ => True) (fun pc => (k.counts pc).toNat) (fun _ => 0)
      k.read where
  start t c := by cases k <;> cases c <;> rfl
  step {s t pc o s' pc' new} h _ hle := by
    cases executorStep_move h with
    | newExecutorCreate i _ _ => cases k <;> rfl
    | newExecutorReturn i _ =>
      cases k with
      | constructor =>
        cases hnew : s.isNew with
        | true => simp only [Tally.read, hnew]; rfl
        | false =>
          simp only [Tally.read, hnew] at hle
          cases hle
      | _ => rfl
    | createWorkerAdmit c _ => cases k <;> cases c <;> rfl
    | createWorkerRefuse c _ => cases k <;> cases c <;> rfl
    | startWorkerFail c _ => cases k <;> cases c <;> rfl
    | startWorkerSpawn c _ _ => cases k <;> cases c <;> rfl
    | settleWorkerError c =>
      cases k with
      | workers =>
        have hsub : s.activeWorkerCount - 1 + 1 = s.activeWorkerCount := Nat.sub_add_cancel hle
        cases c <;> exact hsub
      | _ => cases c <;> rfl
    | settleWorkerAdded c => cases k <;> cases c <;> rfl
    | leaveSubmit p wasJobQueued _ =>
      cases k with
      | submitters =>
        have hsub : s.submittersCount - 1 + 1 = s.submittersCount := Nat.sub_add_cancel hle
        exact hsub
      | _ => rfl
    | workerLeave =>
      cases k with
      | workers =>
        have hsub : s.activeWorkerCount - 1 + 1 = s.activeWorkerCount := Nat.sub_add_cancel hle
        exact hsub
      | _ => rfl
    | shutdownFirst imm _ hfree hrequested =>
      cases k with
      | mutex => simp only [Tally.read, hfree]; rfl
      | shutdown => simp only [Tally.read, hrequested]; rfl
      | _ => rfl
    | drainWait _ imm s₁ hat _ =>
      have := hat.tally k hle
      cases k <;> exact this
    | drainReturn _ s₁ hat _ =>
      have := hat.tally k hle
      cases k <;> exact this
    | drainDiscard _ s₁ hat _ =>
      have := hat.tally k hle
      cases k <;> exact this
    | pushWait _ _ _ _ _ hat _ _ => cases hat <;> cases k <;> rfl
    | pushRefuse _ _ _ _ _ hat _ => cases hat <;> cases k <;> rfl
    | pushAcceptFixed _ _ _ _ _ _ hat _ _ _ => cases hat <;> cases k <;> rfl
    | pushAcceptCached _ _ _ _ _ _ hat _ _ _ => cases hat <;> cases k <;> rfl
    | discardDone c _ => cases k <;> cases c <;> rfl
    | discardMore c _ => cases k <;> cases c <;> rfl
    | discardNull c _ _ _ => cases k <;> cases c <;> rfl
    | discardJob c _ _ _ _ _ _ => cases k <;> cases c <;> rfl
    | discardCancel c j =>
      obtain ⟨_, _, hframe⟩ := s.cancelJob_frame t j
      rw [hframe]
      cases k <;> cases c <;> rfl
    | awaitWait _ _ hat _ => cases hat <;> cases k <;> rfl
    | awaitPass _ c hat _ => cases hat <;> cases k <;> cases c <;> rfl
    | popWait _ _ _ _ _ hat _ _ _ _ => cases hat <;> cases k <;> rfl
    | popNull _ _ _ _ _ hat _ _ _ => cases hat <;> cases k <;> rfl
    | popJob _ _ _ _ _ _ _ _ hat _ _ => cases hat <;> cases k <;> rfl
    | finishJob p =>
      obtain ⟨_, _, hframe⟩ := s.finishJob_frame p o.output
      rw [hframe]
      cases k <;> rfl
    | _ => cases k <;> rfl
  wake h := by cases executorWake_cases h <;> cases k <;> rfl

/-! ## The job queue -/

section JobQueue

variable {s s' : ExecutorState} {t : ℕ} {o : Env} {pc pc' : ExecutorPc} {new : List ExecutorPc}

theorem PushAt.move {j : Job} {timeout : ℕ} {ch ch' : Channel Job} {r : Option Bool}
    (h : PushAt s t o pc j timeout ch) (hch : ch.Push t j ch' r) :
    s.jobQ.channel.Move t pc.waitsForElement pc.waitsForRoom ch' false r.isNone := by
  cases h with
  | call p timeout => exact .push _ _ r hch
  | resume j timeout hwoken => exact .pushResume j _ r hwoken hch

theorem PopAt.move {timeout : ℕ} {quit : Bool} {ch ch' : Channel Job} {r : Option (Option Job)}
    (h : PopAt s t o pc timeout quit ch) (hch : ch.Pop t quit ch' r) :
    s.jobQ.channel.Move t pc.waitsForElement pc.waitsForRoom ch' r.isNone false := by
  cases h with
  | call => exact .pop _ _ r hch
  | resume timeout hwoken => exact .popResume _ _ r hwoken hch

theorem PushAt.contents_eq {j : Job} {timeout : ℕ} {ch : Channel Job}
    (h : PushAt s t o pc j timeout ch) : ch.contents = s.jobQ.channel.contents := by
  cases h <;> rfl

theorem PopAt.contents_eq {timeout : ℕ} {quit : Bool} {ch : Channel Job}
    (h : PopAt s t o pc timeout quit ch) : ch.contents = s.jobQ.channel.contents := by
  cases h <;> rfl

theorem DrainAt.contents_eq {imm : Bool} (h : DrainAt s t imm pc s') :
    s'.jobQ.channel.contents = s.jobQ.channel.contents := by
  cases h with
  | close q hq => simp only [hq]; rfl
  | resume _ _ => rfl

theorem DrainAt.move {imm : Bool} (h : DrainAt s t imm pc s') :
    s.jobQ.channel.Move t pc.waitsForElement pc.waitsForRoom s'.jobQ.channel false false := by
  cases h with
  | close q hq => exact hq ▸ .close
  | resume _ _ => exact .idle

/-- Every move is a section on the job queue or leaves it alone. -/
theorem ExecutorMove.channel (h : ExecutorMove s t o pc s' pc' new) :
    s.jobQ.channel.Move t pc.waitsForElement pc.waitsForRoom s'.jobQ.channel
      pc'.waitsForElement pc'.waitsForRoom := by
  cases h with
  | createWorkerRefuse c _ => cases c <;> exact .idle
  | settleWorkerError c => cases c <;> exact .idle
  | settleWorkerAdded c => cases c <;> exact .idle
  | pushWait _ j _ _ q hat hopen hq => exact hq ▸ hat.move (.wait hopen)
  | pushRefuse _ j _ _ q hat hq => exact hq ▸ hat.move .refuse
  | pushAcceptFixed _ j _ _ q u hat hopen _ hq => exact hq ▸ hat.move (.accept u hopen)
  | pushAcceptCached _ j _ _ q u hat hopen _ hq => exact hq ▸ hat.move (.accept u hopen)
  | drainWait _ _ _ hat _ => exact hat.move
  | drainReturn _ _ hat _ => exact hat.move
  | drainDiscard _ _ hat _ => exact hat.move
  | discardDone k _ => cases k <;> exact .idle
  | discardNull k q hnil hq =>
    have hmove : s.jobQ.channel.Move t false false s.jobQ.channel _ false :=
      .pop true _ _ (.nothing hnil (.inr rfl))
    exact hq ▸ hmove
  | discardJob k j rest q u hcons hq =>
    have hmove : s.jobQ.channel.Move t false false _ _ false :=
      .pop true _ _ (.take j rest u hcons)
    exact hq ▸ hmove
  | discardCancel k j =>
    obtain ⟨_, _, hframe⟩ := s.cancelJob_frame t j
    rw [hframe]
    exact .idle
  | awaitWait _ _ hat _ => cases hat <;> exact .idle
  | awaitPass _ k hat _ => cases hat <;> cases k <;> exact .idle
  | popWait _ _ _ _ q hat hopen hnil hquit hq => exact hq ▸ hat.move (.wait hopen hnil hquit)
  | popNull _ _ _ _ q hat hnil hquit hq => exact hq ▸ hat.move (.nothing hnil hquit)
  | popJob _ _ _ _ q j rest u hat hcons hq => exact hq ▸ hat.move (.take j rest u hcons)
  | finishJob p =>
    obtain ⟨_, _, hframe⟩ := s.finishJob_frame p o.output
    rw [hframe]
    exact .idle
  | _ => exact .idle

/-- The only threads that a move creates are workers before their first pop. -/
theorem ExecutorMove.new_eq (h : ExecutorMove s t o pc s' pc' new) :
    ∀ pc ∈ new, pc = .workerPop := by
  cases h with
  | startWorkerSpawn k _ _ => exact fun pc hpc => List.mem_singleton.mp hpc
  | _ => exact fun pc hpc => absurd hpc List.not_mem_nil

end JobQueue

theorem executorSystem_uses :
    Channel.Uses executorSystem (fun s => s.jobQ.channel) ExecutorPc.waitsForElement
      ExecutorPc.waitsForRoom where
  start t c := by cases c <;> exact ⟨rfl, rfl⟩
  step h := (executorStep_move h).channel
  new h pc hpc := by
    rw [(executorStep_move h).new_eq pc hpc]
    exact ⟨rfl, rfl⟩
  wake {s t pc s'} h := by
    cases executorWake_cases h with
    | fullWait q hq => exact ⟨_, Finset.Subset.rfl, _, Finset.erase_subset _ _, hq⟩
    | emptyWait q hq => exact ⟨_, Finset.erase_subset _ _, _, Finset.Subset.rfl, hq⟩
    | submitters => exact ⟨_, Finset.Subset.rfl, _, Finset.Subset.rfl, rfl⟩
    | workers => exact ⟨_, Finset.Subset.rfl, _, Finset.Subset.rfl, rfl⟩

/-! ## Waiters for zero -/

theorem blocks_submitters :
    System.Blocks executorSystem ExecutorState.submittersCountUntilZeroWait
      ExecutorPc.waitsForSubmitters where
  resume {s t pc o s' pc' new} h hp := by
    cases pc with
    | drain imm =>
      simp only [executorSystem, executorStep] at h
      split at h
      · cases h
      · rename_i hfree
        exact (not_or.mp hfree).1
    | _ => cases hp
  step {s t pc o s' pc' new} h u hu := by
    cases executorStep_move h with
    | leaveSubmit p b _ => exact .inl (CondVar.mem_of_mem_broadcastIf hu)
    | drainWait _ _ _ hat _ =>
      obtain rfl | hu := CondVar.mem_wait.mp hu
      · exact .inr ⟨rfl, rfl⟩
      · cases hat <;> exact .inl hu
    | drainReturn _ _ hat _ => cases hat <;> exact .inl hu
    | drainDiscard _ _ hat _ => cases hat <;> exact .inl hu
    | discardCancel k j =>
      obtain ⟨_, _, hframe⟩ := s.cancelJob_frame t j
      rw [hframe] at hu
      exact .inl hu
    | finishJob p =>
      obtain ⟨_, _, hframe⟩ := s.finishJob_frame p o.output
      rw [hframe] at hu
      exact .inl hu
    | _ => exact .inl hu
  wake h := by
    cases executorWake_cases h with
    | submitters => exact Finset.erase_subset _ _
    | _ => exact Finset.Subset.rfl

theorem blocks_workers :
    System.Blocks executorSystem ExecutorState.activeWorkerCountUntilZeroWait
      ExecutorPc.waitsForWorkers where
  resume {s t pc o s' pc' new} h hp := by
    cases pc with
    | waiting k =>
      simp only [executorSystem, executorStep] at h
      split at h
      · cases h
      · assumption
    | _ => cases hp
  step {s t pc o s' pc' new} h u hu := by
    cases executorStep_move h with
    | settleWorkerError c => exact .inl (CondVar.mem_of_mem_broadcastIf hu)
    | workerLeave => exact .inl (CondVar.mem_of_mem_broadcastIf hu)
    | drainWait _ _ _ hat _ => cases hat <;> exact .inl hu
    | drainReturn _ _ hat _ => cases hat <;> exact .inl hu
    | drainDiscard _ _ hat _ => cases hat <;> exact .inl hu
    | awaitWait _ _ hat _ =>
      obtain rfl | hu := CondVar.mem_wait.mp hu
      · exact .inr ⟨rfl, rfl⟩
      · exact .inl hu
    | discardCancel k j =>
      obtain ⟨_, _, hframe⟩ := s.cancelJob_frame t j
      rw [hframe] at hu
      exact .inl hu
    | finishJob p =>
      obtain ⟨_, _, hframe⟩ := s.finishJob_frame p o.output
      rw [hframe] at hu
      exact .inl hu
    | _ => exact .inl hu
  wake h := by
    cases executorWake_cases h with
    | workers => exact Finset.erase_subset _ _
    | _ => exact Finset.Subset.rfl

/-- The shared state between two sections: the limit holds, nobody waits for a
    zero that is already there, and a requested shutdown has closed the queue
    once `shutdown_mutex` is free. -/
structure Consistent (s : ExecutorState) : Prop where
  limit : s.activeWorkerCount ≤ s.workerCountLimit
  workers : s.activeWorkerCountUntilZeroWait.Nonempty → 0 < s.activeWorkerCount
  submitters : s.submittersCountUntilZeroWait.Nonempty →
    s.shutdownRequested = true ∧ 0 < s.submittersCount
  closed : s.shutdownRequested = true → s.shutdownMutexLocked = false →
    s.jobQ.channel.closed = true

theorem nonempty_of_broadcastIf {cv : CondVar} {b : Bool} (h : (cv.broadcastIf b).Nonempty) :
    cv.Nonempty ∧ b = false := by
  cases b with
  | false => exact ⟨h, rfl⟩
  | true => exact absurd h Finset.not_nonempty_empty

theorem Consistent.decrementActiveWorkerCount {s : ExecutorState} (hs : Consistent s) :
    Consistent s.decrementActiveWorkerCount where
  limit := (Nat.sub_le _ _).trans hs.limit
  workers hne := by
    obtain ⟨-, hzero⟩ := nonempty_of_broadcastIf hne
    exact Nat.pos_of_ne_zero (beq_eq_false_iff_ne.mp hzero)
  submitters := hs.submitters
  closed := hs.closed

theorem Consistent.decrementSubmittersCount {s : ExecutorState} (hs : Consistent s) :
    Consistent s.decrementSubmittersCount where
  limit := hs.limit
  workers := hs.workers
  submitters hne := by
    obtain ⟨hne, hquiet⟩ := nonempty_of_broadcastIf hne
    obtain ⟨hrequested, -⟩ := hs.submitters hne
    rw [hrequested, Bool.and_true, beq_eq_false_iff_ne] at hquiet
    exact ⟨hrequested, Nat.pos_of_ne_zero hquiet⟩
  closed := hs.closed

theorem DrainAt.consistent {s s' : ExecutorState} {t : ℕ} {imm : Bool} {pc : ExecutorPc}
    (h : DrainAt s t imm pc s') (hs : Consistent s) : Consistent s' := by
  cases h with
  | close q hq => exact ⟨hs.limit, hs.workers, hs.submitters, fun _ _ => by rw [hq]; rfl⟩
  | resume _ _ => exact hs

theorem ExecutorMove.consistent {s s' : ExecutorState} {t : ℕ} {o : Env} {pc pc' : ExecutorPc}
    {new : List ExecutorPc} (h : ExecutorMove s t o pc s' pc' new)
    (hfirst : pc.isFirstShutdown = true → s.shutdownRequested = true) (hs : Consistent s) :
    Consistent s' := by
  have hclosed := h.channel.closed_of_closed
  have hqueue := fun hr hl => hclosed (hs.closed hr hl)
  cases h with
  | createWorkerAdmit k hlt =>
    exact ⟨hlt, fun _ => Nat.succ_pos _, hs.submitters, hs.closed⟩
  | settleWorkerError k => exact hs.decrementActiveWorkerCount
  | workerLeave => exact hs.decrementActiveWorkerCount
  | submitAdmit p timeout _ _ hopen =>
    refine ⟨hs.limit, hs.workers, ?_, hs.closed⟩
    exact fun hne => ⟨(hs.submitters hne).1, Nat.succ_pos _⟩
  | leaveSubmit p b _ => exact hs.decrementSubmittersCount
  | shutdownFirst imm _ _ _ =>
    exact ⟨hs.limit, hs.workers, fun hne => ⟨rfl, (hs.submitters hne).2⟩, nofun⟩
  | drainWait _ imm s₁ hat hpos =>
    have hs₁ := hat.consistent hs
    refine ⟨hs₁.limit, hs₁.workers, fun _ => ⟨?_, hpos⟩, hs₁.closed⟩
    have hrequested : s.shutdownRequested = true := by
      cases hat <;> exact hfirst rfl
    cases hat <;> exact hrequested
  | drainReturn _ s₁ hat _ => exact hat.consistent hs
  | drainDiscard _ s₁ hat _ => exact hat.consistent hs
  | discardCancel k j =>
    obtain ⟨_, _, hframe⟩ := s.cancelJob_frame t j
    rw [hframe]
    exact ⟨hs.limit, hs.workers, hs.submitters, hs.closed⟩
  | awaitWait _ k hat hpos => exact ⟨hs.limit, fun _ => hpos, hs.submitters, hs.closed⟩
  | finishJob p =>
    obtain ⟨_, _, hframe⟩ := s.finishJob_frame p o.output
    rw [hframe]
    exact ⟨hs.limit, hs.workers, hs.submitters, hs.closed⟩
  | _ => exact ⟨hs.limit, hs.workers, hs.submitters, hqueue⟩

theorem ExecutorWoken.consistent {s s' : ExecutorState} {t : ℕ} (h : ExecutorWoken s t s')
    (hs : Consistent s) : Consistent s' := by
  cases h with
  | fullWait q hq =>
    exact ⟨hs.limit, hs.workers, hs.submitters, fun hr hl => by rw [hq]; exact hs.closed hr hl⟩
  | emptyWait q hq =>
    exact ⟨hs.limit, hs.workers, hs.submitters, fun hr hl => by rw [hq]; exact hs.closed hr hl⟩
  | submitters =>
    exact ⟨hs.limit, hs.workers, fun hne => hs.submitters (hne.mono (Finset.erase_subset _ _)),
      hs.closed⟩
  | workers =>
    exact ⟨hs.limit, fun hne => hs.workers (hne.mono (Finset.erase_subset _ _)), hs.submitters,
      hs.closed⟩

/-! ## The invariant -/

structure ExecutorInv (c : ExecutorConfig) : Prop where
  tally : ∀ k : Tally, c.count k.counts = k.read c.shared
  queue : Channel.Sound (fun s : ExecutorState => s.jobQ.channel) ExecutorPc.waitsForElement
    ExecutorPc.waitsForRoom c
  submitters : System.Blocked ExecutorState.submittersCountUntilZeroWait
    ExecutorPc.waitsForSubmitters c
  workers : System.Blocked ExecutorState.activeWorkerCountUntilZeroWait
    ExecutorPc.waitsForWorkers c
  shared : Consistent c.shared

/-- What a thread is counted in is not zero. -/
theorem ExecutorInv.tally_pos {c : ExecutorConfig} (hc : ExecutorInv c) {t : ℕ} {pc : ExecutorPc}
    (hpc : c.pc? t = some pc) {k : Tally} (hk : k.counts pc = true) : 0 < k.read c.shared := by
  rw [← hc.tally k]
  exact Config.count_pos hpc hk

/-- Without active workers no thread is one. -/
theorem ExecutorInv.idle {c : ExecutorConfig} (hc : ExecutorInv c)
    (hactive : c.shared.activeWorkerCount = 0) {t : ℕ} {pc : ExecutorPc}
    (hpc : c.pc? t = some pc) : pc.isActive = false :=
  Config.count_eq_zero.mp ((hc.tally .workers).trans hactive) t pc hpc

/-- There is one first shutdown. -/
theorem ExecutorInv.firstShutdown_unique {c : ExecutorConfig} (hc : ExecutorInv c) {t u : ℕ}
    {pc pc' : ExecutorPc} (ht : c.pc? t = some pc) (hu : c.pc? u = some pc')
    (hp : pc.isFirstShutdown = true) (hp' : pc'.isFirstShutdown = true) : t = u :=
  Config.eq_of_count_le_one ((hc.tally .shutdown).trans_le (Bool.toNat_le _)) ht hu hp hp'

theorem ExecutorInv.requested {c : ExecutorConfig} (hc : ExecutorInv c) {t : ℕ} {pc : ExecutorPc}
    (hpc : c.pc? t = some pc) (hfirst : pc.isFirstShutdown = true) :
    c.shared.shutdownRequested = true := by
  have hpos := hc.tally_pos (k := .shutdown) hpc hfirst
  cases hr : c.shared.shutdownRequested with
  | true => rfl
  | false =>
    simp only [Tally.read, hr] at hpos
    cases hpos

theorem ExecutorInv.next {c c' : ExecutorConfig} {a : Act ExecutorCall Env} (hc : ExecutorInv c)
    (h : executorSystem.next c a = some c') : ExecutorInv c' where
  tally k := (balanced_tally k).next' (hc.tally k) h
  queue := executorSystem_uses.next hc.queue h
  submitters := blocks_submitters.next hc.submitters h
  workers := blocks_workers.next hc.workers h
  shared := by
    refine System.Moves.stable (R := Consistent) h ?_ ?_ hc.shared
    · intro t pc o s' pc' new hpc hs
      refine (executorStep_move hs).consistent fun hfirst => ?_
      obtain ⟨-, hat⟩ := hpc.of_start (p := ExecutorPc.isFirstShutdown)
        (fun k => by cases k <;> rfl) hfirst
      exact hc.requested hat hfirst
    · exact fun hs => (executorWake_cases hs).consistent

/-- What `new_executor` sets up. -/
structure ExecutorState.Initial (s : ExecutorState) : Prop where
  limit : 0 < s.workerCountLimit
  fixed : s.type = .fixedThreadCountExecutor →
    s.emptyJobQueueWaitTimeOutInMicroSeconds = blocking
  queue : s.jobQ.channel = .empty
  tally : ∀ k : Tally, k ≠ .constructor → k.read s = 0
  isNew : s.isNew = true
  noWait : s.submittersCountUntilZeroWait = ∅ ∧ s.activeWorkerCountUntilZeroWait = ∅
  noLog : s.log = []
  noResult : ∀ p, s.promises p = .init

theorem ExecutorState.initial_of_new {type : ExecutorType} {limit : ℕ} {cap : WithTop ℕ}
    {timeout : ℕ} {allocated : Bool} {s : ExecutorState}
    (h : ExecutorState.new type limit cap timeout allocated = some s) : s.Initial := by
  unfold ExecutorState.new at h
  split at h
  · cases h
  · rename_i hok
    cases h
    refine ⟨Nat.pos_of_ne_zero (not_or.mp hok).1, ?_, JobQueue.channel_init cap, ?_, rfl,
      ⟨rfl, rfl⟩, rfl, fun _ => rfl⟩
    · rintro rfl
      rfl
    · intro k hk
      cases k with
      | constructor => exact absurd rfl hk
      | _ => rfl

theorem ExecutorState.workerCountLimit_of_new {type : ExecutorType} {limit : ℕ} {cap : WithTop ℕ}
    {timeout : ℕ} {allocated : Bool} {s : ExecutorState}
    (h : ExecutorState.new type limit cap timeout allocated = some s) :
    s.workerCountLimit = limit := by
  unfold ExecutorState.new at h
  split at h
  · cases h
  · cases h
    rfl

theorem ExecutorState.type_of_new {type : ExecutorType} {limit : ℕ} {cap : WithTop ℕ}
    {timeout : ℕ} {allocated : Bool} {s : ExecutorState}
    (h : ExecutorState.new type limit cap timeout allocated = some s) : s.type = type := by
  unfold ExecutorState.new at h
  split at h
  · cases h
  · cases h
    rfl

theorem executorInit_pc {s : ExecutorState} {t : ℕ} {pc : ExecutorPc}
    (h : (executorInit s).pc? t = some pc) : t = 0 ∧ pc = .newExecutor 0 := by
  cases t with
  | zero => cases h; exact ⟨rfl, rfl⟩
  | succ t => cases h

theorem ExecutorState.Initial.inv {s : ExecutorState} (h : s.Initial) :
    ExecutorInv (executorInit s) where
  tally k := by
    cases k with
    | constructor => simp only [Tally.read, executorInit, h.isNew]; rfl
    | workers => exact (h.tally .workers nofun).symm
    | submitters => exact (h.tally .submitters nofun).symm
    | mutex => exact (h.tally .mutex nofun).symm
    | shutdown => exact (h.tally .shutdown nofun).symm
  queue := .init h.queue rfl rfl
  submitters t ht := by
    simp only [executorInit, h.noWait.1] at ht
    cases ht
  workers t ht := by
    simp only [executorInit, h.noWait.2] at ht
    cases ht
  shared := by
    have hidle : s.shutdownRequested.toNat = 0 := h.tally .shutdown nofun
    refine ⟨?_, ?_, ?_, ?_⟩
    · rw [executorInit]
      exact (h.tally .workers nofun).trans_le (Nat.zero_le _)
    · simp only [executorInit, h.noWait.2]
      exact fun hne => absurd hne Finset.not_nonempty_empty
    · simp only [executorInit, h.noWait.1]
      exact fun hne => absurd hne Finset.not_nonempty_empty
    · intro hr
      simp only [executorInit] at hr
      rw [hr] at hidle
      cases hidle

theorem executor_invariant {s : ExecutorState} (hs : s.Initial)
    {ok : ExecutorConfig → Act ExecutorCall Env → Prop} {c : ExecutorConfig}
    (h : executorSystem.Reach ok (executorInit s) c) : ExecutorInv c :=
  h.invariant hs.inv fun _ _ _ _ hc _ hn => hc.next hn

/-! ## Constants -/

/-- What stays as `new_executor` set it. -/
def ExecutorState.SameSettings (s s' : ExecutorState) : Prop :=
  s'.type = s.type ∧ s'.workerCountLimit = s.workerCountLimit ∧
    s'.emptyJobQueueWaitTimeOutInMicroSeconds = s.emptyJobQueueWaitTimeOutInMicroSeconds

theorem ExecutorMove.sameSettings {s s' : ExecutorState} {t : ℕ} {o : Env} {pc pc' : ExecutorPc}
    {new : List ExecutorPc} (h : ExecutorMove s t o pc s' pc' new) : s.SameSettings s' := by
  cases h with
  | drainWait _ _ _ hat _ => cases hat <;> exact ⟨rfl, rfl, rfl⟩
  | drainReturn _ _ hat _ => cases hat <;> exact ⟨rfl, rfl, rfl⟩
  | drainDiscard _ _ hat _ => cases hat <;> exact ⟨rfl, rfl, rfl⟩
  | discardCancel k j =>
    obtain ⟨_, _, hframe⟩ := s.cancelJob_frame t j
    rw [hframe]
    exact ⟨rfl, rfl, rfl⟩
  | finishJob p =>
    obtain ⟨_, _, hframe⟩ := s.finishJob_frame p o.output
    rw [hframe]
    exact ⟨rfl, rfl, rfl⟩
  | _ => exact ⟨rfl, rfl, rfl⟩

theorem ExecutorState.SameSettings.trans {s s' s'' : ExecutorState} (h : s.SameSettings s')
    (h' : s'.SameSettings s'') : s.SameSettings s'' :=
  ⟨h'.1.trans h.1, h'.2.1.trans h.2.1, h'.2.2.trans h.2.2⟩

theorem settings_next {c c' : ExecutorConfig} {a : Act ExecutorCall Env}
    (h : executorSystem.next c a = some c') : c.shared.SameSettings c'.shared := by
  refine System.next_stable (R := fun s => c.shared.SameSettings s) h ?_ ?_ ⟨rfl, rfl, rfl⟩
  · intro s t pc o s' pc' new hs hsame
    exact hsame.trans (executorStep_move hs).sameSettings
  · intro s t pc s' hs hsame
    cases executorWake_cases hs <;> exact hsame

theorem settings_reach {s : ExecutorState} {ok : ExecutorConfig → Act ExecutorCall Env → Prop}
    {c : ExecutorConfig} (h : executorSystem.Reach ok (executorInit s) c) :
    s.SameSettings c.shared := by
  refine h.invariant (P := fun c => s.SameSettings c.shared) ⟨rfl, rfl, rfl⟩ ?_
  intro c a c' _ hc _ hn
  exact hc.trans (settings_next hn)

/-! ## The counters -/

/-- The next section of the thread decrements `active_worker_count`. -/
def ExecutorPc.decrementsWorkers : ExecutorPc → Bool
  | .settleWorker _ error => error
  | .workerLeave => true
  | _ => false

/-- The next section of the thread decrements `submitters_count`. -/
def ExecutorPc.decrementsSubmitters : ExecutorPc → Bool
  | .leaveSubmit _ _ => true
  | _ => false

/-- The counters of an executor count its workers and submitters, stay within
    their bounds, and no thread waits for a zero that it missed. -/
theorem executor_counters {type : ExecutorType} {limit : ℕ} {cap : WithTop ℕ} {timeout : ℕ}
    {allocated : Bool} {s : ExecutorState}
    (hnew : ExecutorState.new type limit cap timeout allocated = some s) {c : ExecutorConfig}
    (h : ExecutorReach s c) :
    c.shared.activeWorkerCount = c.count ExecutorPc.isActive ∧
    c.shared.activeWorkerCount ≤ limit ∧
    (∀ t pc, c.pc? t = some pc → pc.decrementsWorkers = true →
      0 < c.shared.activeWorkerCount) ∧
    c.shared.submittersCount = c.count ExecutorPc.isSubmitting ∧
    (∀ t pc, c.pc? t = some pc → pc.decrementsSubmitters = true →
      0 < c.shared.submittersCount) ∧
    (∀ t ∈ System.blocked ExecutorState.activeWorkerCountUntilZeroWait
      ExecutorPc.waitsForWorkers c, 0 < c.shared.activeWorkerCount) ∧
    (∀ t ∈ System.blocked ExecutorState.submittersCountUntilZeroWait
      ExecutorPc.waitsForSubmitters c, 0 < c.shared.submittersCount) := by
  have hinv := executor_invariant (ExecutorState.initial_of_new hnew) h
  have hworkers : c.count ExecutorPc.isActive = c.shared.activeWorkerCount :=
    hinv.tally .workers
  have hsubmitters : c.count ExecutorPc.isSubmitting = c.shared.submittersCount :=
    hinv.tally .submitters
  refine ⟨hworkers.symm, ?_, ?_, hsubmitters.symm, ?_, ?_, ?_⟩
  · rw [← ExecutorState.workerCountLimit_of_new hnew, ← (settings_reach h).2.1]
    exact hinv.shared.limit
  · intro t pc hpc hdec
    rw [← hworkers]
    refine Config.count_pos hpc ?_
    cases pc with
    | settleWorker k error => exact hdec
    | workerLeave => rfl
    | _ => cases hdec
  · intro t pc hpc hdec
    rw [← hsubmitters]
    refine Config.count_pos hpc ?_
    cases pc with
    | leaveSubmit p b => rfl
    | _ => cases hdec
  · exact fun t ht => hinv.shared.workers ⟨t, Finset.mem_of_mem_inter_right ht⟩
  · exact fun t ht => (hinv.shared.submitters ⟨t, Finset.mem_of_mem_inter_right ht⟩).2

/-- A cached pool of at most one worker over an unbounded array list. -/
def cachedPool : ExecutorState :=
  (ExecutorState.new .cachedThreadPoolExecutor 1 ⊤ 5 true).get rfl

/-- The first submission to the pool is creating its worker. -/
def oneWorker : ExecutorConfig :=
  executorSystem.run (executorInit cachedPool)
    [.step 0 (.smooth none), .call (.submit (some 0) none none none blocking) (.smooth none),
      .step 1 (.smooth none), .step 1 (.smooth none), .step 1 (.smooth none),
      .step 1 (.smooth none), .step 1 (.smooth none)] (by decide)

theorem executor_counters_oneWorker :
    oneWorker.shared.activeWorkerCount = oneWorker.count ExecutorPc.isActive ∧
      oneWorker.shared.activeWorkerCount ≤ 1 :=
  have h := executor_counters (Option.some_get _).symm (.run _ _ _)
  ⟨h.1, h.2.1⟩

end BoomPar
