-- SUMMARY: When a cached pool grows: queued jobs against the workers on their way and the submissions that still decide.
import BoomPar.ExecutorCounters

/-!
# Growth of a cached pool

A submission decides about a worker from two separate reads of the queue. What
it owes to the queued jobs is kept by everything that threads do except by a
submission that declines, which may do so on behalf of a worker that another
job has already claimed.
-/

namespace BoomPar

open Monitor

namespace ExecutorPc

/-- A thread that is to be created. -/
def startsWorker : ExecutorPc → Bool
  | .startWorker _ => true
  | _ => false

/-- A worker in creation or about to pop. -/
def isPopping : ExecutorPc → Bool
  | .startWorker _ => true
  | .workerPop => true
  | _ => false

/-- An accepted submission that has not decided about a worker. -/
def isDeciding : ExecutorPc → Bool
  | .readWaiting _ => true
  | .readEmpty _ => true
  | .createWorker (.submit _) => true
  | _ => false

/-- A worker inside a job function. -/
def isExecuting : ExecutorPc → Bool
  | .workerBusy _ => true
  | _ => false

/-- A worker in creation, or one that has not popped NULL. -/
def isLive : ExecutorPc → Bool
  | .startWorker _ => true
  | .workerPop => true
  | .workerWait _ => true
  | .workerRun _ => true
  | .workerBusy _ => true
  | _ => false

/-- The submission declines to create a worker: it sees waiting workers all of
    which are woken already, or the limit. -/
def declines (s : ExecutorState) : ExecutorPc → Bool
  | .readWaiting _ => 0 < s.jobQ.channel.emptyCount && s.jobQ.channel.emptyWait = ∅
  | .createWorker (.submit _) => s.workerCountLimit ≤ s.activeWorkerCount
  | _ => false

end ExecutorPc

/-- Each queued job has a worker on its way or a submission that still decides, or
    these submissions reach the limit. -/
def Served (s : ExecutorState) (popping deciding live : ℕ) : Prop :=
  s.jobQ.channel.contents.length ≤ s.jobQ.channel.woken + popping + deciding ∨
    s.workerCountLimit ≤ live + deciding

instance (s : ExecutorState) (popping deciding live : ℕ) :
    Decidable (Served s popping deciding live) := inferInstanceAs (Decidable (_ ∨ _))

/-- Every creation of a thread succeeds. -/
def CreationSucceeds (c : ExecutorConfig) : Act ExecutorCall Env → Prop
  | .step t o => ∀ pc ∈ c.pc? t, pc.startsWorker = true →
      c.shared.emptyJobQueueWaitTimeOutInMicroSeconds ≠ nonBlocking ∧ o.threadError = false
  | _ => True

instance (c : ExecutorConfig) : DecidablePred (CreationSucceeds c)
  | .step _ _ => inferInstanceAs (Decidable (∀ pc ∈ _, _ → _))
  | .call _ _ => isTrue trivial
  | .wake _ => isTrue trivial

/-- A submission that declines leaves the queued jobs served by the others. -/
def DeclinesServed (c : ExecutorConfig) : Act ExecutorCall Env → Prop
  | .step t _ => ∀ pc ∈ c.pc? t, pc.declines c.shared = true →
      Served c.shared (c.count ExecutorPc.isPopping) (c.count ExecutorPc.isDeciding - 1)
        (c.count ExecutorPc.isLive)
  | _ => True

instance (c : ExecutorConfig) : DecidablePred (DeclinesServed c)
  | .step _ _ => inferInstanceAs (Decidable (∀ pc ∈ _, _ → _))
  | .call _ _ => isTrue trivial
  | .wake _ => isTrue trivial

/-! ## One move -/

section Move

variable {s s' : ExecutorState} {popping deciding live popping' deciding' live' : ℕ}

theorem Served.mono (hs : Served s popping deciding live)
    (hlimit : s'.workerCountLimit = s.workerCountLimit)
    (hcontents : s'.jobQ.channel.contents.length ≤ s.jobQ.channel.contents.length)
    (hwoken : s.jobQ.channel.woken ≤ s'.jobQ.channel.woken) (hpopping : popping ≤ popping')
    (hdeciding : deciding ≤ deciding') (hlive : live ≤ live') :
    Served s' popping' deciding' live' := by
  rw [Served, hlimit]
  apply hs.imp
  · intro hle
    omega
  · intro hle
    omega

theorem Served.of_nil (hnil : s.jobQ.channel.contents = []) :
    Served s popping deciding live := by
  left
  rw [hnil]
  exact Nat.zero_le _

/-- A submission makes a worker instead of deciding. -/
theorem Served.create (hs : Served s popping (deciding + 1) live)
    (hlimit : s'.workerCountLimit = s.workerCountLimit) (hqueue : s'.jobQ = s.jobQ) :
    Served s' (popping + 1) deciding (live + 1) := by
  rw [Served, hlimit, hqueue]
  apply hs.imp
  · intro hle
    omega
  · intro hle
    omega

/-- A push adds a job and a submission that decides. -/
theorem Served.push (hs : Served s popping deciding live)
    (hlimit : s'.workerCountLimit = s.workerCountLimit)
    (hcontents : s'.jobQ.channel.contents.length = s.jobQ.channel.contents.length + 1)
    (hwoken : s.jobQ.channel.woken ≤ s'.jobQ.channel.woken) :
    Served s' popping (deciding + 1) live := by
  rw [Served, hlimit, hcontents]
  apply hs.imp
  · intro hle
    omega
  · intro hle
    omega

/-- A worker that was on its way takes a job. -/
theorem Served.pop (hs : Served s popping deciding live)
    (hlimit : s'.workerCountLimit = s.workerCountLimit)
    (hcontents : s.jobQ.channel.contents.length = s'.jobQ.channel.contents.length + 1)
    (hway : s.jobQ.channel.woken + popping = s'.jobQ.channel.woken + popping' + 1) :
    Served s' popping' deciding live := by
  rw [Served, hlimit]
  apply hs.imp
  · intro hle
    omega
  · exact id

variable {t : ℕ} {o : Env} {pc pc' : ExecutorPc} {new : List ExecutorPc}

theorem DrainAt.served {imm : Bool} (h : DrainAt s t imm pc s')
    (hs : Served s (popping + pc.isPopping.toNat) (deciding + pc.isDeciding.toNat)
      (live + pc.isLive.toNat)) : Served s' popping deciding live := by
  cases h with
  | close q hq =>
    refine hs.mono rfl ?_ ?_ le_rfl le_rfl le_rfl
    · rw [hq]
      exact le_rfl
    · rw [hq]
      exact Nat.sub_le_sub_left (Finset.card_le_card (Channel.close_emptyWait_subset _)) _
  | resume _ _ => exact hs

theorem PushAt.woken_eq {j : Job} {timeout : ℕ} {ch : Channel Job}
    (h : PushAt s t o pc j timeout ch) : ch.woken = s.jobQ.channel.woken := by
  cases h <;> rfl

theorem PushAt.weightless {j : Job} {timeout : ℕ} {ch : Channel Job}
    (h : PushAt s t o pc j timeout ch) :
    pc.isPopping = false ∧ pc.isDeciding = false ∧ pc.isLive = false := by
  cases h <;> exact ⟨rfl, rfl, rfl⟩

theorem woken_signalIf (ch : Channel Job) (b : Bool) (u : ℕ) (contents : List Job) :
    ch.woken ≤
      Channel.woken { ch with contents := contents, emptyWait := ch.emptyWait.signalIf b u } := by
  refine Nat.sub_le_sub_left ?_ _
  cases b with
  | false => exact Nat.le_refl _
  | true => exact CondVar.card_signal_le _ u

/-- A creation that is to succeed does not fail. -/
theorem not_startError
    (h : s.emptyJobQueueWaitTimeOutInMicroSeconds ≠ nonBlocking ∧ o.threadError = false) :
    ¬(s.emptyJobQueueWaitTimeOutInMicroSeconds = nonBlocking ∨ o.threadError = true) := by
  rintro (htimeout | herror)
  · exact h.1 htimeout
  · rw [h.2] at herror
    cases herror

/-- What a move leaves of the queued jobs is served again, given how many of the
    other threads are popping, deciding and live. -/
theorem ExecutorMove.served (h : ExecutorMove s t o pc s' pc' new)
    (htype : s.type = .cachedThreadPoolExecutor) (ha : s.jobQ.channel.Awake)
    (hwaits : pc.waitsForElement = true →
      s.jobQ.channel.emptyWait.card < s.jobQ.channel.emptyCount)
    (hcreate : pc.startsWorker = true →
      s.emptyJobQueueWaitTimeOutInMicroSeconds ≠ nonBlocking ∧ o.threadError = false)
    (hdeclines : pc.declines s = true → Served s popping deciding live)
    (hs : Served s (popping + pc.isPopping.toNat) (deciding + pc.isDeciding.toNat)
      (live + pc.isLive.toNat)) :
    Served s' (popping + pc'.isPopping.toNat + (new.map fun q => q.isPopping.toNat).sum)
      (deciding + pc'.isDeciding.toNat + (new.map fun q => q.isDeciding.toNat).sum)
      (live + pc'.isLive.toNat + (new.map fun q => q.isLive.toNat).sum) := by
  cases h with
  | createWorkerAdmit k _ =>
    cases k with
    | newExecutor i => exact hs.mono rfl le_rfl le_rfl (Nat.le_succ _) le_rfl (Nat.le_succ _)
    | submit p =>
      have hs : Served s popping (deciding + 1) live := hs
      exact hs.create rfl rfl
  | createWorkerRefuse k hle =>
    cases k with
    | newExecutor i => exact hs
    | submit p => exact hdeclines (decide_eq_true hle)
  | startWorkerFail k herror => exact absurd herror (not_startError (hcreate rfl))
  | startWorkerSpawn k _ _ => exact hs
  | settleWorkerError k => cases k <;> exact hs
  | settleWorkerAdded k => cases k <;> exact hs
  | pushWait _ j _ ch q hat _ hch =>
    obtain ⟨hp, hd, hl⟩ := hat.weightless
    rw [hp, hd, hl] at hs
    refine hs.mono rfl ?_ ?_ le_rfl le_rfl le_rfl
    · rw [hch, ← hat.contents_eq]
    · rw [hch, ← hat.woken_eq]
      exact le_rfl
  | pushRefuse _ j _ ch q hat hch =>
    obtain ⟨hp, hd, hl⟩ := hat.weightless
    rw [hp, hd, hl] at hs
    refine hs.mono rfl ?_ ?_ le_rfl le_rfl le_rfl
    · rw [hch, ← hat.contents_eq]
    · rw [hch, ← hat.woken_eq]
  | pushAcceptFixed _ j _ ch q u hat _ hfixed hch =>
    rw [htype] at hfixed
    cases hfixed
  | pushAcceptCached _ j _ ch q u hat _ _ hch =>
    obtain ⟨hp, hd, hl⟩ := hat.weightless
    rw [hp, hd, hl] at hs
    have hwoken := woken_signalIf ch (0 < ch.emptyCount) u (ch.contents ++ [j])
    rw [← hch, hat.woken_eq] at hwoken
    refine hs.push rfl ?_ hwoken
    rw [hch, List.length_append, hat.contents_eq]
    rfl
  | readWaitingNone p _ => exact hs
  | readWaitingSome p hpos =>
    by_cases hne : s.jobQ.channel.emptyWait.Nonempty
    · left
      exact (ha.length_le_woken hne).trans (by omega)
    · refine hdeclines ?_
      rw [Finset.not_nonempty_iff_eq_empty] at hne
      simp [ExecutorPc.declines, hpos, hne]
  | readEmptyNone p hnil => exact .of_nil hnil
  | drainWait _ _ _ hat _ => exact hat.served hs
  | drainReturn _ _ hat _ => exact hat.served hs
  | drainDiscard _ _ hat _ => exact hat.served hs
  | discardDone k _ => cases k <;> exact hs
  | discardNull k q hnil hch =>
    refine .of_nil ?_
    rw [hch, hnil]
  | discardJob k j rest q u hcons hch =>
    refine hs.mono rfl ?_ ?_ le_rfl le_rfl le_rfl
    · rw [hch, hcons]
      exact Nat.le_succ _
    · rw [hch]
      exact le_rfl
  | discardCancel k j =>
    obtain ⟨_, _, hframe⟩ := s.cancelJob_frame t j
    rw [hframe]
    exact hs
  | awaitWait _ _ hat _ => cases hat <;> exact hs
  | awaitPass _ k hat _ => cases hat <;> cases k <;> exact hs
  | popWait _ _ _ ch q hat _ hnil _ hch =>
    refine .of_nil ?_
    rw [hch, hnil]
  | popNull _ _ _ ch q hat hnil _ hch =>
    refine .of_nil ?_
    rw [hch, hnil]
  | popJob _ _ _ ch q j rest u hat hcons hch =>
    have hlength : s.jobQ.channel.contents.length = q.channel.contents.length + 1 := by
      rw [← hat.contents_eq, hcons, hch]
      rfl
    cases hat with
    | call =>
      have hs : Served s (popping + 1) deciding (live + 1) := hs
      refine hs.pop rfl hlength ?_
      rw [hch]
      exact (Nat.add_assoc _ _ _).symm
    | resume timeout _ =>
      have hs : Served s popping deciding (live + 1) := hs
      change Served _ popping deciding (live + 1)
      refine hs.pop rfl hlength ?_
      have hlt := hwaits rfl
      rw [hch]
      simp only [Channel.woken, Channel.resumeEmpty]
      omega
  | skipJob j _ => exact hs.mono rfl le_rfl le_rfl (Nat.le_succ _) le_rfl le_rfl
  | finishJob p =>
    obtain ⟨_, _, hframe⟩ := s.finishJob_frame p o.output
    rw [hframe]
    exact hs.mono rfl le_rfl le_rfl (Nat.le_succ _) le_rfl le_rfl
  | _ => exact hs

end Move

/-! ## The invariant of growth -/

/-- The queued jobs are served by the threads of the pool. -/
def Grown (c : ExecutorConfig) : Prop :=
  Served c.shared (c.count ExecutorPc.isPopping) (c.count ExecutorPc.isDeciding)
    (c.count ExecutorPc.isLive)

variable {c c' : ExecutorConfig} {a : Act ExecutorCall Env}

theorem Grown.push (hc : Grown c) {pc : ExecutorPc} : Grown (c.push pc) := by
  rw [Grown, Config.count_push, Config.count_push, Config.count_push, Config.push_shared]
  exact hc.mono rfl le_rfl le_rfl (Nat.le_add_right _ _) (Nat.le_add_right _ _)
    (Nat.le_add_right _ _)

/-- What the other threads of the pool add to a count. -/
theorem count_others {t : ℕ} {pc : ExecutorPc} (hpc : c.pc? t = some pc) (s : ExecutorState)
    (pc' : ExecutorPc) (new : List ExecutorPc) (p : ExecutorPc → Bool) :
    ∃ n, c.count p = n + (p pc).toNat ∧
      (c.move t s pc' new).count p = n + (p pc').toNat + (new.map fun q => (p q).toNat).sum := by
  have hle := Config.le_sumOver hpc fun q => (p q).toNat
  have hmove := Config.sumOver_move hpc s pc' new fun q => (p q).toNat
  refine ⟨c.count p - (p pc).toNat, (Nat.sub_add_cancel hle).symm, ?_⟩
  simp only [Config.count] at hle ⊢
  omega

theorem Grown.move (hc : Grown c) (hsound : Channel.Sound (fun s : ExecutorState =>
      s.jobQ.channel) ExecutorPc.waitsForElement ExecutorPc.waitsForRoom c)
    (htype : c.shared.type = .cachedThreadPoolExecutor) {t : ℕ} {o : Env} {pc pc' : ExecutorPc}
    {s : ExecutorState} {new : List ExecutorPc} (hpc : c.pc? t = some pc)
    (h : ExecutorMove c.shared t o pc s pc' new)
    (hcreate : pc.startsWorker = true →
      c.shared.emptyJobQueueWaitTimeOutInMicroSeconds ≠ nonBlocking ∧ o.threadError = false)
    (hdeclines : pc.declines c.shared = true → Served c.shared (c.count ExecutorPc.isPopping)
      (c.count ExecutorPc.isDeciding - 1) (c.count ExecutorPc.isLive)) :
    Grown (c.move t s pc' new) := by
  obtain ⟨popping, hpopping, hpopping'⟩ := count_others hpc s pc' new ExecutorPc.isPopping
  obtain ⟨deciding, hdeciding, hdeciding'⟩ := count_others hpc s pc' new ExecutorPc.isDeciding
  obtain ⟨live, hlive, hlive'⟩ := count_others hpc s pc' new ExecutorPc.isLive
  rw [Grown, hpopping', hdeciding', hlive', Config.move_shared]
  rw [Grown, hpopping, hdeciding, hlive] at hc
  refine h.served htype hsound.awake ?_ hcreate ?_ hc
  · intro he
    exact hsound.emptyCount ▸ hsound.emptyWait.card_lt hpc he (h.channel.notMem_emptyWait he)
  · intro hdec
    have hserved := hdeclines hdec
    have hweights : pc.isPopping = false ∧ pc.isDeciding = true ∧ pc.isLive = false := by
      cases pc with
      | readWaiting p => exact ⟨rfl, rfl, rfl⟩
      | createWorker k =>
        cases k with
        | submit p => exact ⟨rfl, rfl, rfl⟩
        | newExecutor i => cases hdec
      | _ => cases hdec
    rw [hpopping, hdeciding, hlive, hweights.1, hweights.2.1, hweights.2.2] at hserved
    exact hserved

theorem Grown.next (hc : Grown c) (hinv : ExecutorInv c)
    (htype : c.shared.type = .cachedThreadPoolExecutor) (hok : CreationSucceeds c a)
    (hdeclines : DeclinesServed c a) (h : executorSystem.next c a = some c') : Grown c' := by
  cases a with
  | call k o =>
    obtain ⟨pc, s, pc', new, hpc, hs, rfl⟩ := System.stepAt_cases h
    obtain ⟨he, hf⟩ := executorSystem_uses.start c.threads.length k
    refine hc.push.move (hinv.queue.push he hf) htype hpc (executorStep_move hs) ?_ ?_
    · rw [Config.pc?_push_self] at hpc
      cases hpc
      cases k <;> exact nofun
    · rw [Config.pc?_push_self] at hpc
      cases hpc
      cases k <;> exact nofun
  | step t o =>
    obtain ⟨pc, s, pc', new, hpc, hs, rfl⟩ := System.stepAt_cases h
    exact hc.move hinv.queue htype hpc (executorStep_move hs) (hok pc hpc) (hdeclines pc hpc)
  | wake t =>
    obtain ⟨pc, s, hpc, hs, rfl⟩ := System.next_wake_cases h
    cases executorWake_cases hs with
    | fullWait q hq =>
      refine hc.mono rfl ?_ ?_ le_rfl le_rfl le_rfl
      · rw [hq]
      · rw [hq]
        exact le_rfl
    | emptyWait q hq =>
      refine hc.mono rfl ?_ ?_ le_rfl le_rfl le_rfl
      · rw [hq]
      · rw [hq]
        exact Nat.sub_le_sub_left Finset.card_erase_le _
    | submitters => exact hc
    | workers => exact hc

/-! ## Quiet states -/

/-- The workers blocked on the empty job queue and not yet woken. -/
def blockedWorkers (c : ExecutorConfig) : Finset ℕ :=
  System.blocked (fun s : ExecutorState => s.jobQ.channel.emptyWait) ExecutorPc.waitsForElement c

/-- No submission is in progress, and every worker executes a job or is blocked
    for lack of one. -/
def Quiet (c : ExecutorConfig) : Prop :=
  c.count ExecutorPc.isSubmitting = 0 ∧
    c.those ExecutorPc.isActive ⊆ c.those ExecutorPc.isExecuting ∪ blockedWorkers c

/-- In a quiet state before the shutdown, jobs are queued only at the limit. -/
def GrowsWhenMust (c : ExecutorConfig) : Prop :=
  c.shared.shutdownRequested = false → Quiet c → c.shared.jobQ.channel.contents ≠ [] →
    c.shared.activeWorkerCount = c.shared.workerCountLimit

instance (c : ExecutorConfig) : Decidable (Quiet c) := inferInstanceAs (Decidable (_ ∧ _))

theorem ExecutorPc.of_isPopping {pc : ExecutorPc} (h : pc.isPopping = true) :
    pc.isActive = true ∧ pc.isExecuting = false ∧ pc.waitsForElement = false := by
  cases pc with
  | startWorker k => exact ⟨rfl, rfl, rfl⟩
  | workerPop => exact ⟨rfl, rfl, rfl⟩
  | _ => cases h

theorem ExecutorPc.of_waitsForElement {pc : ExecutorPc} (h : pc.waitsForElement = true) :
    pc.isActive = true ∧ pc.isExecuting = false := by
  cases pc with
  | workerWait timeout => exact ⟨rfl, rfl⟩
  | _ => cases h

theorem Quiet.of_isActive (h : Quiet c) {t : ℕ} {pc : ExecutorPc} (hpc : c.pc? t = some pc)
    (hactive : pc.isActive = true) : pc.isExecuting = true ∨ t ∈ blockedWorkers c := by
  obtain hexec | hblocked := Finset.mem_union.mp (h.2 (Config.mem_those.mpr ⟨pc, hpc, hactive⟩))
  · obtain ⟨pc', hpc', hexec⟩ := Config.mem_those.mp hexec
    rw [hpc] at hpc'
    cases hpc'
    exact .inl hexec
  · exact .inr hblocked

theorem Quiet.count_isPopping (h : Quiet c) : c.count ExecutorPc.isPopping = 0 := by
  refine Config.count_eq_zero.mpr fun t pc hpc => ?_
  by_contra hp
  rw [Bool.not_eq_false] at hp
  obtain ⟨hactive, hidle, hruns⟩ := ExecutorPc.of_isPopping hp
  obtain hexec | hblocked := h.of_isActive hpc hactive
  · rw [hidle] at hexec
    cases hexec
  · obtain ⟨pc', hpc', hwaits⟩ := Config.mem_those.mp (Finset.mem_of_mem_inter_left hblocked)
    rw [hpc] at hpc'
    cases hpc'
    rw [hruns] at hwaits
    cases hwaits

theorem Quiet.count_isDeciding (h : Quiet c) : c.count ExecutorPc.isDeciding = 0 := by
  refine Nat.le_zero.mp (h.1 ▸ Config.count_mono fun pc hp => ?_)
  cases pc with
  | readWaiting p => rfl
  | readEmpty p => rfl
  | createWorker k =>
    cases k with
    | submit p => rfl
    | newExecutor i => cases hp
  | _ => cases hp

/-- In a quiet state every worker that waits for a job is still blocked. -/
theorem Quiet.woken_eq_zero (h : Quiet c) (hinv : ExecutorInv c) :
    c.shared.jobQ.channel.woken = 0 := by
  have hsub : c.those ExecutorPc.waitsForElement ⊆ c.shared.jobQ.channel.emptyWait := by
    intro t ht
    obtain ⟨pc, hpc, hwaits⟩ := Config.mem_those.mp ht
    obtain ⟨hactive, hidle⟩ := ExecutorPc.of_waitsForElement hwaits
    obtain hexec | hblocked := h.of_isActive hpc hactive
    · rw [hidle] at hexec
      cases hexec
    · exact Finset.mem_of_mem_inter_right hblocked
  have hcard := Finset.card_le_card hsub
  rw [Config.card_those, hinv.queue.emptyCount] at hcard
  exact Nat.sub_eq_zero_of_le hcard

theorem ExecutorInv.count_isLive_le (hinv : ExecutorInv c) :
    c.count ExecutorPc.isLive ≤ c.shared.activeWorkerCount := by
  have htally : c.count ExecutorPc.isActive = c.shared.activeWorkerCount := hinv.tally .workers
  rw [← htally]
  refine Config.count_mono fun pc hp => ?_
  cases pc <;> first | rfl | cases hp

theorem Grown.growsWhenMust (hc : Grown c) (hinv : ExecutorInv c) : GrowsWhenMust c := by
  intro _ hquiet hne
  have hlive := hinv.count_isLive_le
  have hpos := List.length_pos_of_ne_nil hne
  rw [Grown, Served, hquiet.count_isPopping, hquiet.count_isDeciding,
    hquiet.woken_eq_zero hinv] at hc
  refine Nat.le_antisymm hinv.shared.limit ?_
  omega

/-- When every thread creation succeeds and every submission of a cached pool that
    declines leaves the queued jobs served, the pool grows whenever it must. -/
theorem grows_when_must {limit : ℕ} {cap : WithTop ℕ} {timeout : ℕ} {allocated : Bool}
    {s : ExecutorState}
    (hnew : ExecutorState.new .cachedThreadPoolExecutor limit cap timeout allocated = some s)
    (h : executorSystem.Reach (fun c a => CreationSucceeds c a ∧ DeclinesServed c a)
      (executorInit s) c) : GrowsWhenMust c := by
  have hs := ExecutorState.initial_of_new hnew
  have hinv : ∀ {c}, executorSystem.Reach
      (fun c a => CreationSucceeds c a ∧ DeclinesServed c a) (executorInit s) c →
      ExecutorInv c := executor_invariant hs
  refine Grown.growsWhenMust ?_ (hinv h)
  refine h.invariant (P := Grown) (.of_nil ?_) ?_
  · rw [executorInit, hs.queue]
    rfl
  · intro c a c' hreach hc hok hn
    refine hc.next (hinv hreach) ?_ hok.1 hok.2 hn
    rw [(settings_reach hreach).1, ExecutorState.type_of_new hnew]

/-- The worker of a full pool is busy while the next job is queued. -/
def busyPool : ExecutorConfig :=
  executorSystem.checkedRun (fun c a => CreationSucceeds c a ∧ DeclinesServed c a)
    (executorInit cachedPool)
    ([.step 0 (.smooth none), .call (.submit (some 0) none none none blocking) (.smooth none)] ++
      List.replicate 7 (.step 1 (.smooth none)) ++
      [.step 2 (.smooth none), .step 2 (.smooth none),
        .call (.submit (some 0) none none none blocking) (.smooth none)] ++
      List.replicate 5 (.step 3 (.smooth none))) (by decide)

theorem grows_when_must_busyPool : GrowsWhenMust busyPool :=
  grows_when_must (Option.some_get _).symm (.checkedRun _ _ _ _)

/-- A cached pool of at most two workers over an unbounded array list. -/
def growingPool : ExecutorState :=
  (ExecutorState.new .cachedThreadPoolExecutor 2 ⊤ 5 true).get rfl

/-- Two submissions in quick succession both count on the one idle worker. -/
def crowdedPool : ExecutorConfig :=
  executorSystem.checkedRun CreationSucceeds (executorInit growingPool)
    ([.step 0 (.smooth none), .call (.submit (some 0) none none none blocking) (.smooth none)] ++
      List.replicate 7 (.step 1 (.smooth none)) ++ List.replicate 4 (.step 2 (.smooth none)) ++
      [.call (.submit (some 0) none none none blocking) (.smooth none),
        .call (.submit (some 0) none none none blocking) (.smooth none),
        .step 3 (.smooth none), .step 4 ⟨.resize 2, true, false, none⟩, .step 3 (.smooth none),
        .step 4 (.smooth none), .step 3 (.smooth none), .step 4 (.smooth none),
        .step 2 (.smooth none), .step 2 (.smooth none)]) (by decide)

/-- A job is queued while the only worker is busy and the limit is not reached. -/
theorem grows_not_when_must :
    ∃ c, executorSystem.Reach CreationSucceeds (executorInit growingPool) c ∧
      ¬GrowsWhenMust c := by
  refine ⟨crowdedPool, .checkedRun _ _ _ _, ?_⟩
  intro h
  have hlimit := h (by decide) (by decide) (by decide)
  revert hlimit
  decide

end BoomPar
