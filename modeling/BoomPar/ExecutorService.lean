-- SUMMARY: Service of the executor: a worker that is alive serves every accepted job, and a fixed pool keeps all its workers until the queue is closed and empty.
import BoomPar.ExecutorGraceful
import BoomPar.ExecutorProgress

/-!
# Service of the jobs

Workers may come and go, but none goes while a job is queued. Whoever finds a
worker alive therefore knows that the jobs accepted so far come to an end, one
after the other; a fixed pool has its workers alive as long as it matters. In a fair
run the functions of the jobs return, and no call is made or under way once
`delete_executor` has freed the executor; the workers are gone by then.
-/

namespace BoomPar

open Monitor

namespace ExecutorPc

/-- A worker in its loop. -/
def works : ExecutorPc → Bool
  | .workerPop => true
  | .workerWait _ => true
  | .workerRun _ => true
  | .workerBusy _ => true
  | _ => false

/-- How many sections a thread has before it that takes jobs out of the queue. -/
def pace : ExecutorPc → ℕ
  | .workerRun _ => 3
  | .workerBusy _ => 2
  | .discardCancel _ _ => 2
  | .workerPop => 1
  | .workerWait _ => 1
  | _ => 0

end ExecutorPc

namespace ExecutorState

/-- The jobs in the queue, the first one first. -/
def queuedJobs (s : ExecutorState) : List JobParams := s.jobQ.channel.contents.map Job.params

/-- How many jobs are queued before `p`. -/
def ahead (s : ExecutorState) (p : JobParams) : ℕ := s.queuedJobs.idxOf p

end ExecutorState

/-- The steps of workers and discarders may go on without a failure. -/
def AllowsWork (ok : ExecutorConfig → Act ExecutorCall Env → Prop) : Prop :=
  ∀ c t pc, c.pc? t = some pc → 0 < pc.pace → ok c (.step t (.smooth none))

theorem AllowsSmooth.allowsWork {ok : ExecutorConfig → Act ExecutorCall Env → Prop}
    (hok : AllowsSmooth ok) : AllowsWork ok := fun c t _ _ _ => hok c t

theorem ExecutorPc.pace_pos_of_works {pc : ExecutorPc} (h : pc.works = true) : 0 < pc.pace := by
  cases pc with
  | workerPop => exact Nat.one_pos
  | workerWait timeout => exact Nat.one_pos
  | workerRun j => exact Nat.succ_pos 2
  | workerBusy p => exact Nat.two_pos
  | _ => cases h

theorem ExecutorPc.pace_pos_of_holds {pc : ExecutorPc} {p : JobParams} (h : pc.holds p = true) :
    0 < pc.pace := by
  cases pc with
  | workerRun j => exact Nat.succ_pos 2
  | workerBusy p => exact Nat.two_pos
  | discardCancel k j => exact Nat.two_pos
  | _ => cases h

theorem AllowsWork.canStep {ok : ExecutorConfig → Act ExecutorCall Env → Prop}
    (hok : AllowsWork ok) {c : ExecutorConfig} {t : ℕ} {pc : ExecutorPc}
    (hpc : c.pc? t = some pc) (hpace : 0 < pc.pace)
    (hawake : t ∉ c.shared.jobQ.channel.emptyWait) : System.CanStep executorSystem ok c t := by
  refine .of_isSome hpc (hok c t pc hpc hpace) (executorStep_isSome ?_)
  cases pc with
  | workerWait timeout => exact decide_eq_false hawake
  | workerPop => rfl
  | workerRun j => rfl
  | workerBusy p => rfl
  | discardCancel k j => rfl
  | _ => cases hpace

/-! ## One move -/

section Move

variable {s s' : ExecutorState} {t : ℕ} {o : Env} {pc pc' : ExecutorPc} {new : List ExecutorPc}

/-- While a job is queued a worker goes on, and comes to take one. -/
theorem ExecutorMove.works (h : ExecutorMove s t o pc s' pc' new) (hpc : pc.works = true)
    (hne : s.jobQ.channel.contents ≠ []) :
    pc'.works = true ∧ pc'.waitsForElement = false ∧ ((∃ j, pc' = .workerRun j) ∨
      (pc'.pace < pc.pace ∧ s'.jobQ.channel.contents = s.jobQ.channel.contents)) := by
  cases h with
  | pushWait _ _ _ _ _ hat _ _ => cases hat <;> cases hpc
  | pushRefuse _ _ _ _ _ hat _ => cases hat <;> cases hpc
  | pushAcceptFixed _ _ _ _ _ _ hat _ _ _ => cases hat <;> cases hpc
  | pushAcceptCached _ _ _ _ _ _ hat _ _ _ => cases hat <;> cases hpc
  | drainWait _ _ _ hat _ => cases hat <;> cases hpc
  | drainReturn _ _ hat _ => cases hat <;> cases hpc
  | drainDiscard _ _ hat _ => cases hat <;> cases hpc
  | awaitWait _ _ hat _ => cases hat <;> cases hpc
  | awaitPass _ _ hat _ => cases hat <;> cases hpc
  | popWait _ _ _ _ _ hat _ hnil _ _ => exact absurd (hat.contents_eq ▸ hnil) hne
  | popNull _ _ _ _ _ hat hnil _ _ => exact absurd (hat.contents_eq ▸ hnil) hne
  | popJob _ _ _ _ _ j _ _ _ _ _ => exact ⟨rfl, rfl, .inl ⟨j, rfl⟩⟩
  | runJob j _ => exact ⟨rfl, rfl, .inr ⟨Nat.lt_succ_self 2, rfl⟩⟩
  | skipJob j _ => exact ⟨rfl, rfl, .inr ⟨Nat.one_lt_succ_succ 1, rfl⟩⟩
  | finishJob p =>
    obtain ⟨_, _, hframe⟩ := s.finishJob_frame p o.output
    rw [hframe]
    exact ⟨rfl, rfl, .inr ⟨Nat.one_lt_two, rfl⟩⟩
  | _ => cases hpc

/-- A job that is queued once is the one taken out, or comes nearer to the front. -/
theorem ExecutorState.ahead_of_taken {j : Job} {p : JobParams}
    (hcons : s.jobQ.channel.contents = j :: s'.jobQ.channel.contents)
    (hone : s.inQueue p ≤ 1) (hp : p ∈ s.queuedJobs) :
    p ∉ s'.queuedJobs ∨ (p ∈ s'.queuedJobs ∧ s'.ahead p < s.ahead p) := by
  unfold ExecutorState.ahead ExecutorState.queuedJobs at *
  unfold ExecutorState.inQueue at hone
  rw [hcons, List.map_cons] at *
  by_cases hj : j.params = p
  · left
    intro hmem
    have hpos := List.count_pos_iff.mpr hmem
    rw [hj, List.count_cons_self] at hone
    omega
  · right
    rw [List.idxOf_cons_ne _ hj]
    exact ⟨(List.mem_cons.mp hp).resolve_left (Ne.symm hj), Nat.lt_succ_self _⟩

/-- A queued job is taken or stays, and comes no further behind. -/
theorem ExecutorMove.ahead (h : ExecutorMove s t o pc s' pc' new) {p : JobParams}
    (hone : s.inQueue p ≤ 1) (hp : p ∈ s.queuedJobs) :
    p ∉ s'.queuedJobs ∨ (p ∈ s'.queuedJobs ∧ s'.ahead p ≤ s.ahead p) := by
  rcases h.channel.contents_cases with ⟨d, hcontents⟩ | ⟨d, hcontents⟩ | hcontents
  · right
    unfold ExecutorState.ahead ExecutorState.queuedJobs at *
    rw [hcontents, List.map_append, List.idxOf_append_of_mem hp]
    exact ⟨List.mem_append_left _ hp, le_rfl⟩
  · refine (ExecutorState.ahead_of_taken hcontents hone hp).imp_right ?_
    exact fun hstays => ⟨hstays.1, hstays.2.le⟩
  · right
    unfold ExecutorState.ahead ExecutorState.queuedJobs at *
    rw [hcontents]
    exact ⟨hp, le_rfl⟩

/-- A thread that took a job keeps it until it is at its end. -/
theorem JobMove.holds (h : JobMove s t o pc s' pc') {p : JobParams} (hpc : pc.holds p = true) :
    0 < s'.finished p ∨ (pc'.holds p = true ∧ pc'.pace < pc.pace) := by
  cases h with
  | idle _ _ _ hidle _ _ _ _ _ =>
    rw [ExecutorPc.holds_of_isIdle hidle] at hpc
    cases hpc
  | queue _ _ _ j hidle _ _ _ _ _ _ =>
    rw [ExecutorPc.holds_of_isIdle hidle] at hpc
    cases hpc
  | take _ _ j hidle _ _ _ _ =>
    rw [ExecutorPc.holds_of_isIdle hidle] at hpc
    cases hpc
  | discard k _ j _ _ _ => cases hpc
  | invoke j => exact .inr ⟨hpc, Nat.lt_succ_self 2⟩
  | finish p' =>
    obtain rfl : p' = p := of_decide_eq_true hpc
    left
    rw [ExecutorState.finished, ExecutorState.countP_finishJob (fun _ _ => rfl)]
    simp [ExecutorEvent.outputs]
  | cancel k j hj =>
    obtain hsame : j.params = p := of_decide_eq_true hpc
    left
    rw [ExecutorState.finished,
      ExecutorState.countP_cancelJob_of_uncalled (q := ExecutorEvent.cancels p) (fun _ _ => rfl)
        (fun _ => rfl) s t hj]
    simp [ExecutorEvent.cancels, hsame]

end Move

/-! ## A worker takes the queued jobs -/

/-- Worker `t` is not blocked, and `k` jobs are queued before `p`. -/
structure Serving (t k : ℕ) (p : JobParams) (c : ExecutorConfig) : Prop where
  works : ∃ pc, c.pc? t = some pc ∧ pc.works = true
  awake : t ∉ c.shared.jobQ.channel.emptyWait
  queued : p ∈ c.shared.queuedJobs
  ahead : c.shared.ahead p = k

/-- The job was taken, or came nearer to the front and has worker `t` left. -/
def CameNearer (t k : ℕ) (p : JobParams) (c : ExecutorConfig) : Prop :=
  p ∉ c.shared.queuedJobs ∨
    (c.shared.ahead p < k ∧ ∃ pc, c.pc? t = some pc ∧ pc.works = true)

section

variable {s : ExecutorState} {ok : ExecutorConfig → Act ExecutorCall Env → Prop}
  {c c' : ExecutorConfig} {a : Act ExecutorCall Env} {t k : ℕ} {p : JobParams}

/-- A job is accepted once at most. -/
theorem LifeInv.queued_le_one (hc : LifeInv c) (p : JobParams) :
    c.shared.log.count (.queued p) ≤ 1 := by
  rw [← hc.jobs.submitted p]
  refine Config.count_le_one (t := p.name) fun t pc hpc hp => ?_
  exact (hc.names t pc hpc p (ExecutorPc.params_of_submitted hp)).symm

theorem LifeInv.inQueue_le_one (hc : LifeInv c) (p : JobParams) : c.shared.inQueue p ≤ 1 := by
  have htokens := hc.jobs.tokens p
  have hone := hc.queued_le_one p
  omega

theorem mem_queuedJobs_ne_nil (h : p ∈ s.queuedJobs) : s.jobQ.channel.contents ≠ [] := by
  intro hnil
  rw [ExecutorState.queuedJobs, hnil] at h
  cases h

/-- A transition takes a queued job, or leaves it no further behind. -/
theorem ahead_next (hc : LifeInv c) (h : executorSystem.next c a = some c')
    (hp : p ∈ c.shared.queuedJobs) :
    p ∉ c'.shared.queuedJobs ∨
      (p ∈ c'.shared.queuedJobs ∧ c'.shared.ahead p ≤ c.shared.ahead p) := by
  rcases System.next_runs_cases h with ⟨t, pc, o, pc', new, -, hs⟩ | ⟨t, pc, -, hs⟩
  · exact (executorStep_move hs).ahead (hc.inQueue_le_one p) hp
  · right
    unfold ExecutorState.ahead ExecutorState.queuedJobs at *
    rw [(executorWake_cases hs).contents_eq]
    exact ⟨hp, le_rfl⟩

theorem serving_progress (hs : s.Initial) (hok : AllowsWork ok) (t k : ℕ) (p : JobParams) :
    System.Progress executorSystem ok (executorInit s) (Serving t k p) (CameNearer t k p)
      (fun c => c.weightAt ExecutorPc.pace t) (fun u _ => u = t) where
  helper _ _ _ := ⟨t, rfl⟩
  can := by
    rintro c u - hc - rfl
    obtain ⟨pc, hpc, hworks⟩ := hc.works
    exact hok.canStep hpc (ExecutorPc.pace_pos_of_works hworks) hc.awake
  step := by
    rintro c u o c' hreach hc - rfl - h
    obtain ⟨pc, hpc, hworks⟩ := hc.works
    obtain ⟨pc₁, s₁, pc', new, hpc₁, hs₁, rfl⟩ := System.stepAt_cases h
    have hmove := executorStep_move hs₁
    rw [hpc] at hpc₁
    cases hpc₁
    have hself := Config.pc?_move_self hpc s₁ pc' new
    obtain ⟨hworks', hgoes, ⟨j, hj⟩ | ⟨hpace, hcontents⟩⟩ :=
      hmove.works hworks (mem_queuedJobs_ne_nil hc.queued)
    · -- the worker takes the first job
      obtain ⟨-, -, hcons⟩ := hmove.of_run hj
      left
      refine (ExecutorState.ahead_of_taken hcons ((executor_life hs hreach).inQueue_le_one p)
        hc.queued).imp_right fun hnearer => ⟨?_, pc', hself, hworks'⟩
      rw [← hc.ahead]
      exact hnearer.2
    · refine .inr ⟨⟨⟨pc', hself, hworks'⟩, ?_, ?_, ?_⟩, ?_⟩
      · intro hmem
        rcases executorSystem_uses.blocks_emptyWait.step hs₁ u hmem with hold | ⟨-, hwaits⟩
        · exact hc.awake hold
        · rw [hgoes] at hwaits
          cases hwaits
      · rw [Config.move_shared, ExecutorState.queuedJobs, hcontents]
        exact hc.queued
      · rw [Config.move_shared, ExecutorState.ahead, ExecutorState.queuedJobs, hcontents]
        exact hc.ahead
      · simp only [Config.weightAt_of_pc? hpc, Config.weightAt_of_pc? hself]
        exact hpace
  keep := by
    intro c a c' hreach hc _ hnot _ h
    obtain ⟨pc, hpc, hworks⟩ := hc.works
    obtain ⟨hself, hchange⟩ := System.next_other h hpc fun o ha => hnot t o ha rfl
    have hawake : t ∉ c'.shared.jobQ.channel.emptyWait := by
      intro hmem
      rcases hchange with ⟨u, q, o, q', new, hne, -, hs⟩ | ⟨u, q, hs⟩
      · rcases executorSystem_uses.blocks_emptyWait.step hs t hmem with hold | ⟨rfl, -⟩
        · exact hc.awake hold
        · exact hne rfl
      · exact hc.awake (executorSystem_uses.blocks_emptyWait.wake hs hmem)
    rcases ahead_next (executor_life hs hreach) h hc.queued with htaken | ⟨hqueued, hle⟩
    · exact .inl (.inl htaken)
    · rw [hc.ahead] at hle
      rcases hle.lt_or_eq with hlt | heq
      · exact .inl (.inr ⟨hlt, pc, hself, hworks⟩)
      · refine .inr ⟨⟨⟨pc, hself, hworks⟩, hawake, hqueued, heq⟩, .inr ⟨?_, fun _ => id⟩⟩
        rw [Config.weightAt_of_pc? hpc, Config.weightAt_of_pc? hself]

/-- While a job is queued, a worker that lives is awake, or another one is. -/
theorem exists_serving (hc : ExecutorInv c) {pc : ExecutorPc} (hpc : c.pc? t = some pc)
    (hworks : pc.works = true) (hp : p ∈ c.shared.queuedJobs) :
    ∃ u, Serving u (c.shared.ahead p) p c := by
  by_cases hblocked : t ∈ c.shared.jobQ.channel.emptyWait
  · obtain ⟨q, hq, hwaits⟩ := hc.queue.emptyWait t hblocked
    obtain ⟨u, q', hq', hwaits', hwoken⟩ :=
      hc.queue.exists_woken (mem_queuedJobs_ne_nil hp) hq hwaits
    refine ⟨u, ⟨q', hq', ?_⟩, hwoken, hp, rfl⟩
    cases q' with
    | workerWait timeout => rfl
    | _ => cases hwaits'
  · exact ⟨t, ⟨pc, hpc, hworks⟩, hblocked, hp, rfl⟩

theorem queued_job_is_taken (hs : s.Initial) (hok : AllowsWork ok) (r : ExecutorRun ok s) {n : ℕ}
    {pc : ExecutorPc} (hpc : (r.config n).pc? t = some pc) (hworks : pc.works = true)
    (hp : p ∈ (r.config n).shared.queuedJobs) :
    ∃ m, n ≤ m ∧ p ∉ (r.config m).shared.queuedJobs := by
  -- each job taken brings the job nearer to the front
  refine System.eventually_of_rank
    (P := fun n => p ∈ (r.config n).shared.queuedJobs ∧
      ∃ t pc, (r.config n).pc? t = some pc ∧ pc.works = true)
    (fun n => (r.config n).shared.ahead p) ?_ ⟨hp, t, pc, hpc, hworks⟩
  rintro n ⟨hp, t, pc, hpc, hworks⟩
  obtain ⟨hinv, -⟩ := executor_phases hs (r.reach n)
  obtain ⟨u, hserving⟩ := exists_serving hinv hpc hworks hp
  obtain ⟨m, hnm, hserved⟩ := (serving_progress hs hok u _ p).leadsTo r n hserving
  by_cases hqueued : p ∈ (r.config m).shared.queuedJobs
  · rcases hserved with htaken | ⟨hnearer, q, hq, hworks'⟩
    · exact absurd hqueued htaken
    · exact ⟨m, hnm, .inr ⟨⟨hqueued, u, q, hq, hworks'⟩, hnearer⟩⟩
  · exact ⟨m, hnm, .inl hqueued⟩

/-! ## What is taken comes to an end -/

theorem holding_progress (hs : s.Initial) (hok : AllowsWork ok) (t : ℕ) (p : JobParams) :
    System.Progress executorSystem ok (executorInit s)
      (fun c => ∃ pc, c.pc? t = some pc ∧ pc.holds p = true) (fun c => 0 < c.shared.finished p)
      (fun c => c.weightAt ExecutorPc.pace t) (fun u _ => u = t) where
  helper _ _ _ := ⟨t, rfl⟩
  can := by
    rintro c u hreach ⟨pc, hpc, hholds⟩ - rfl
    obtain ⟨hinv, -⟩ := executor_phases hs hreach
    refine hok.canStep hpc (ExecutorPc.pace_pos_of_holds hholds) fun hmem => ?_
    obtain ⟨q, hq, hwaits⟩ := hinv.queue.emptyWait u hmem
    rw [hpc] at hq
    cases hq
    cases pc with
    | workerWait timeout => cases hholds
    | _ => cases hwaits
  step := by
    rintro c u o c' hreach ⟨pc, hpc, hholds⟩ - rfl - h
    obtain ⟨pc₁, s₁, pc', new, hpc₁, hs₁, rfl⟩ := System.stepAt_cases h
    rw [hpc] at hpc₁
    cases hpc₁
    have hjobs := (executorStep_move hs₁).jobs
      ((executor_jobs hs hreach).created.threads u pc hpc)
    have hself := Config.pc?_move_self hpc s₁ pc' new
    refine (hjobs.holds hholds).imp_right fun hkept => ⟨⟨pc', hself, hkept.1⟩, ?_⟩
    simp only [Config.weightAt_of_pc? hpc, Config.weightAt_of_pc? hself]
    exact hkept.2
  keep := by
    rintro c a c' - ⟨pc, hpc, hholds⟩ - hnot - h
    obtain ⟨hself, -⟩ := System.next_other h hpc fun o ha => hnot t o ha rfl
    refine .inr ⟨⟨pc, hself, hholds⟩, .inr ⟨?_, fun _ => id⟩⟩
    rw [Config.weightAt_of_pc? hpc, Config.weightAt_of_pc? hself]

/-- An accepted job that is not queued any more comes to its end. -/
theorem taken_job_is_finished (hs : s.Initial) (hok : AllowsWork ok) (r : ExecutorRun ok s)
    {n : ℕ} (haccepted : .queued p ∈ (r.config n).shared.log)
    (htaken : p ∉ (r.config n).shared.queuedJobs) :
    ∃ m, n ≤ m ∧ 0 < (r.config m).shared.finished p := by
  have htokens := (executor_life hs (r.reach n)).jobs.tokens p
  have hpos := List.count_pos_iff.mpr haccepted
  have hnone : (r.config n).shared.inQueue p = 0 := List.count_eq_zero.mpr htaken
  by_cases hheld : 0 < (r.config n).count (ExecutorPc.holds p)
  · obtain ⟨t, pc, hpc, hholds⟩ := Config.exists_of_count_pos hheld
    exact (holding_progress hs hok t p).leadsTo r n ⟨pc, hpc, hholds⟩
  · exact ⟨n, le_rfl, by omega⟩

/-- The function of the job returned, or the job was cancelled. -/
def Ended (s : ExecutorState) (p : JobParams) : Prop :=
  (∃ v, .output p v ∈ s.log) ∨ ∃ u, .cancelled u p ∈ s.log

theorem ended_of_finished (h : 0 < s.finished p) : Ended s p := by
  rcases Nat.add_pos_iff_pos_or_pos.mp h with hout | hcancel
  · obtain ⟨e, he, hp⟩ := List.countP_pos_iff.mp hout
    cases e with
    | output p' v =>
      obtain rfl : p' = p := of_decide_eq_true hp
      exact .inl ⟨v, he⟩
    | _ => cases hp
  · obtain ⟨e, he, hp⟩ := List.countP_pos_iff.mp hcancel
    cases e with
    | cancelled u p' =>
      obtain rfl : p' = p := of_decide_eq_true hp
      exact .inr ⟨u, he⟩
    | _ => cases hp

/-- A worker that is alive at some moment lets each job accepted by then end. -/
theorem accepted_job_ends (hs : s.Initial) (hok : AllowsWork ok) (r : ExecutorRun ok s) {n : ℕ}
    {pc : ExecutorPc} (hpc : (r.config n).pc? t = some pc) (hworks : pc.works = true)
    (haccepted : .queued p ∈ (r.config n).shared.log) :
    ∃ m, n ≤ m ∧ Ended (r.config m).shared p := by
  have htaken : ∃ l, n ≤ l ∧ p ∉ (r.config l).shared.queuedJobs := by
    by_cases hqueued : p ∈ (r.config n).shared.queuedJobs
    · exact queued_job_is_taken hs hok r hpc hworks hqueued
    · exact ⟨n, le_rfl, hqueued⟩
  obtain ⟨l, hnl, htaken⟩ := htaken
  obtain ⟨m, hlm, hfinished⟩ :=
    taken_job_is_finished hs hok r ((log_stays r hnl).subset haccepted) htaken
  exact ⟨m, hnl.trans hlm, ended_of_finished hfinished⟩

end

/-- In every fair run of an executor of either type, a worker that is alive at some
    moment makes sure that each job accepted by then is executed or cancelled. -/
theorem live_worker_serves {type : ExecutorType} {limit : ℕ} {cap : WithTop ℕ} {timeout : ℕ}
    {allocated : Bool} {s : ExecutorState}
    (hnew : ExecutorState.new type limit cap timeout allocated = some s)
    (r : ExecutorRun (fun _ _ => True) s) {n t : ℕ} {pc : ExecutorPc} {p : JobParams}
    (hpc : (r.config n).pc? t = some pc) (hworks : pc.works = true)
    (haccepted : .queued p ∈ (r.config n).shared.log) :
    ∃ m, n ≤ m ∧ Ended (r.config m).shared p :=
  have hok : AllowsSmooth fun _ _ => True := fun _ _ => trivial
  accepted_job_ends (ExecutorState.initial_of_new hnew) hok.allowsWork r hpc hworks haccepted

/-- The worker executes the job that it finds while the executor winds up. -/
def windingUpRun : ExecutorRun (fun _ _ => True) cachedPool :=
  .ofCheck _ windingUp (by decide)
    (System.not_canStep ExecutorState.rests executorStep_eq_none (by decide))

theorem live_worker_serves_windingUpRun :
    ∃ m, 8 ≤ m ∧ Ended (windingUpRun.config m).shared ⟨1, some 0, none, none, none⟩ :=
  live_worker_serves (Option.some_get _).symm windingUpRun (n := 8) (t := 2) rfl rfl (by decide)

/-! ## A fixed pool -/

/-- Threads are created when asked for, and a wait without a timeout returns no error. -/
def Reliable (c : ExecutorConfig) (a : Act ExecutorCall Env) : Prop :=
  CreationSucceeds c a ∧ WaitsReliable c a

instance (c : ExecutorConfig) : DecidablePred (Reliable c) := fun _ =>
  inferInstanceAs (Decidable (_ ∧ _))

theorem reliable_allowsWork : AllowsWork Reliable := by
  intro c t pc hpc hpace
  refine ⟨fun q hq hstarts => ?_, fun _ _ _ => rfl⟩
  rw [hpc] at hq
  cases hq
  cases pc with
  | startWorker k => cases hpace
  | _ => cases hstarts

namespace ExecutorPc

/-- The submission is about to create a worker. -/
def decides : ExecutorPc → Bool
  | .readWaiting _ => true
  | .readEmpty _ => true
  | .createWorker (.submit _) => true
  | .startWorker (.submit _) => true
  | .settleWorker (.submit _) _ => true
  | _ => false

/-- A submission that passed its first section, returned or not. -/
def admitted : ExecutorPc → Bool
  | .returned (.submit _ _) => true
  | pc => pc.isSubmitting

theorem admitted_of_submitted {pc : ExecutorPc} {p : JobParams} (h : pc.submitted p = true) :
    pc.admitted = true := by
  cases pc with
  | readWaiting p' => rfl
  | readEmpty p' => rfl
  | createWorker k => cases k <;> [cases h; rfl]
  | startWorker k => cases k <;> [cases h; rfl]
  | settleWorker k error => cases k <;> [cases h; rfl]
  | leaveSubmit p' b => rfl
  | returned result => cases result <;> first | rfl | cases h
  | _ => cases h

/-- How many of the `limit` workers `new_executor` has still to create. -/
def toCreate (limit : ℕ) : ExecutorPc → ℕ
  | .newExecutor i => limit - i
  | .createWorker (.newExecutor i) => limit - (i + 1) + 1
  | .startWorker (.newExecutor i) => limit - (i + 1)
  | .settleWorker (.newExecutor i) _ => limit - (i + 1)
  | _ => 0

theorem toCreate_of_not_constructing (limit : ℕ) {pc : ExecutorPc}
    (h : pc.isConstructing = false) : pc.toCreate limit = 0 := by
  cases pc with
  | newExecutor i => cases h
  | createWorker k => cases k <;> [cases h; rfl]
  | startWorker k => cases k <;> [cases h; rfl]
  | settleWorker k error => cases k <;> [cases h; rfl]
  | _ => rfl

theorem isActive_of_works {pc : ExecutorPc} (h : pc.works = true) : pc.isActive = true := by
  cases pc with
  | workerPop => rfl
  | workerWait timeout => rfl
  | workerRun j => rfl
  | workerBusy p => rfl
  | _ => cases h

end ExecutorPc

section Move

variable {s s' : ExecutorState} {t : ℕ} {o : Env} {pc pc' : ExecutorPc} {new : List ExecutorPc}

/-- Nothing is submitted before `new_executor` returned. -/
theorem ExecutorMove.admitted (h : ExecutorMove s t o pc s' pc' new)
    (hpc' : pc'.admitted = true) : pc.admitted = true ∨ s.isNew = false := by
  cases h with
  | createWorkerAdmit k _ => cases k <;> [cases hpc'; exact .inl rfl]
  | createWorkerRefuse k _ => cases k <;> [cases hpc'; exact .inl rfl]
  | startWorkerFail k _ => cases k <;> [cases hpc'; exact .inl rfl]
  | startWorkerSpawn k _ _ => cases k <;> [cases hpc'; exact .inl rfl]
  | settleWorkerError k => cases k <;> [cases hpc'; exact .inl rfl]
  | settleWorkerAdded k => cases k <;> [cases hpc'; exact .inl rfl]
  | submitRefuse p timeout hnew _ _ => exact .inr hnew
  | submitAdmit p timeout hnew _ _ => exact .inr hnew
  | pushNull p timeout _ => exact .inl rfl
  | pushWait _ _ _ _ _ hat _ _ => cases hat <;> exact .inl rfl
  | pushRefuse _ _ _ _ _ hat _ => cases hat <;> exact .inl rfl
  | pushAcceptFixed _ _ _ _ _ _ hat _ _ _ => cases hat <;> exact .inl rfl
  | pushAcceptCached _ _ _ _ _ _ hat _ _ _ => cases hat <;> exact .inl rfl
  | readWaitingNone p _ => exact .inl rfl
  | readWaitingSome p _ => exact .inl rfl
  | readEmptyNone p _ => exact .inl rfl
  | readEmptySome p _ => exact .inl rfl
  | leaveSubmit p b _ => exact .inl rfl
  | discardDone k _ => cases k <;> cases hpc'
  | awaitPass _ k _ _ => cases k <;> cases hpc'
  | _ => cases hpc'

/-- Only a cached pool creates workers on a submission. -/
theorem ExecutorMove.decides (h : ExecutorMove s t o pc s' pc' new)
    (htype : s.type = .fixedThreadCountExecutor) (hpc : pc.decides = false) :
    pc'.decides = false := by
  cases h with
  | createWorkerAdmit k _ => cases k <;> [rfl; cases hpc]
  | createWorkerRefuse k _ => cases k <;> rfl
  | startWorkerFail k _ => cases k <;> [rfl; cases hpc]
  | startWorkerSpawn k _ _ => cases k <;> [rfl; cases hpc]
  | settleWorkerError k => cases k <;> rfl
  | settleWorkerAdded k => cases k <;> rfl
  | pushAcceptCached _ _ _ _ _ _ _ _ hcached _ =>
    rw [htype] at hcached
    cases hcached
  | readWaitingNone p _ => cases hpc
  | readEmptySome p _ => cases hpc
  | discardDone k _ => cases k <;> rfl
  | awaitPass _ k _ _ => cases k <;> rfl
  | _ => rfl

/-- The workers that a fixed pool has and those that are to come are as many as before,
    unless one leaves. -/
theorem ExecutorMove.toCreate {limit : ℕ} (h : ExecutorMove s t o pc s' pc' new)
    (htype : s.type = .fixedThreadCountExecutor) (hlimit : s.workerCountLimit = limit)
    (hdecides : pc.decides = false) (hcreated : pc.failedToStart = false)
    (hleave : pc.isLeaving = true → Finished s)
    (hle : pc.toCreate limit + s.activeWorkerCount ≤ limit) :
    pc'.toCreate limit + (new.map (ExecutorPc.toCreate limit)).sum + s'.activeWorkerCount =
      pc.toCreate limit + s.activeWorkerCount ∨ Finished s' := by
  have hfinished := h.finished
  cases h with
  | newExecutorCreate i _ hlt =>
    left
    simp only [ExecutorPc.toCreate, List.map_nil, List.sum_nil]
    omega
  | newExecutorReturn i hloop =>
    have hdone : limit ≤ i := by
      rw [← hlimit]
      exact Nat.le_of_not_lt fun hlt => hloop ⟨htype, hlt⟩
    left
    simp only [ExecutorPc.toCreate, List.map_nil, List.sum_nil]
    omega
  | createWorkerAdmit k _ =>
    cases k with
    | newExecutor i =>
      left
      simp only [ExecutorPc.toCreate, List.map_nil, List.sum_nil]
      omega
    | submit p => cases hdecides
  | createWorkerRefuse k hfull =>
    cases k with
    | newExecutor i =>
      simp only [ExecutorPc.toCreate] at hle
      omega
    | submit p => cases hdecides
  | startWorkerFail k _ => cases k <;> [exact .inl rfl; cases hdecides]
  | startWorkerSpawn k _ _ => cases k <;> [exact .inl rfl; cases hdecides]
  | settleWorkerError k => cases hcreated
  | settleWorkerAdded k => cases k <;> [exact .inl rfl; cases hdecides]
  | workerLeave => exact .inr (hfinished (hleave rfl))
  | pushWait _ _ _ _ _ hat _ _ => cases hat <;> exact .inl rfl
  | pushRefuse _ _ _ _ _ hat _ => cases hat <;> exact .inl rfl
  | pushAcceptFixed _ _ _ _ _ _ hat _ _ _ => cases hat <;> exact .inl rfl
  | pushAcceptCached _ _ _ _ _ _ hat _ _ _ => cases hat <;> exact .inl rfl
  | drainWait _ _ _ hat _ => cases hat <;> exact .inl rfl
  | drainReturn _ _ hat _ => cases hat <;> exact .inl rfl
  | drainDiscard _ _ hat _ => cases hat <;> exact .inl rfl
  | discardDone k _ => cases k <;> exact .inl rfl
  | discardCancel k j =>
    obtain ⟨_, _, hframe⟩ := s.cancelJob_frame t j
    rw [hframe]
    exact .inl rfl
  | awaitWait _ _ hat _ => cases hat <;> exact .inl rfl
  | awaitPass _ k hat _ => cases hat <;> cases k <;> exact .inl rfl
  | popWait _ _ _ _ _ hat _ _ _ _ => cases hat <;> exact .inl rfl
  | popNull _ _ _ _ _ hat _ _ _ => cases hat <;> exact .inl rfl
  | popJob _ _ _ _ _ _ _ _ hat _ _ => cases hat <;> exact .inl rfl
  | finishJob p =>
    obtain ⟨_, _, hframe⟩ := s.finishJob_frame p o.output
    rw [hframe]
    exact .inl rfl
  | _ => exact .inl rfl

end Move

theorem notNew_next {c c' : ExecutorConfig} {a : Act ExecutorCall Env}
    (h : executorSystem.next c a = some c') (hnew : c.shared.isNew = false) :
    c'.shared.isNew = false :=
  System.next_stable (R := fun s => s.isNew = false) h
    (fun hs => (executorStep_move hs).requested.2.1)
    (fun hs hnew => by cases executorWake_cases hs <;> exact hnew) hnew

theorem executor_admitted {s : ExecutorState} {ok : ExecutorConfig → Act ExecutorCall Env → Prop}
    {c : ExecutorConfig} (h : executorSystem.Reach ok (executorInit s) c) :
    System.After ExecutorPc.admitted (fun s => s.isNew = false) c := by
  refine h.invariant (P := System.After ExecutorPc.admitted fun s => s.isNew = false) ?_ ?_
  · intro t pc hpc hp
    obtain ⟨rfl, rfl⟩ := executorInit_pc hpc
    cases hp
  · intro c a c' _ hc _ hn
    refine hc.next hn (fun t k => by cases k <;> rfl) (newWorker_of_step rfl) (notNew_next hn) ?_
    intro t pc o pc' new _ hs _ hbefore hp
    exact notNew_next hn (((executorStep_move hs).admitted hp).elim hbefore id)

/-- Whoever has a job accepted finds an executor that is not new. -/
theorem notNew_of_accepted {s : ExecutorState} (hs : s.Initial)
    {ok : ExecutorConfig → Act ExecutorCall Env → Prop} {c : ExecutorConfig}
    (h : executorSystem.Reach ok (executorInit s) c) {p : JobParams}
    (haccepted : .queued p ∈ c.shared.log) : c.shared.isNew = false := by
  have hpos : 0 < c.count (ExecutorPc.submitted p) := by
    rw [(executor_jobs hs h).submitted p]
    exact List.count_pos_iff.mpr haccepted
  obtain ⟨t, pc, hpc, hp⟩ := Config.exists_of_count_pos hpos
  exact executor_admitted h t pc hpc (ExecutorPc.admitted_of_submitted hp)

/-- What a fixed pool keeps in a reliable environment. -/
structure FixedInv (limit : ℕ) (c : ExecutorConfig) : Prop extends LifeInv c where
  type : c.shared.type = .fixedThreadCountExecutor
  settings : Settings c.shared
  limit_eq : c.shared.workerCountLimit = limit
  created : System.Free ExecutorPc.failedToStart c
  undecided : System.Free ExecutorPc.decides c
  waits : System.Free ExecutorPc.timesOut c
  leaves : System.After ExecutorPc.isLeaving Finished c
  full : System.Sums (ExecutorPc.toCreate limit) ExecutorState.activeWorkerCount limit Finished c

section

variable {limit : ℕ} {c c' : ExecutorConfig} {a : Act ExecutorCall Env} {t : ℕ} {pc : ExecutorPc}
  {o : Env}

/-- A thread that moves is at a control state that is free of `p`. -/
theorem free_of_moves {p : ExecutorPc → Bool} (hc : System.Free p c)
    (h : System.Moves executorSystem c a t pc o)
    (hstart : ∀ t k, p (executorSystem.start t k) = false) : p pc = false := by
  rcases h with ⟨-, hpc⟩ | ⟨k, -, rfl⟩
  · exact hc t pc hpc
  · exact hstart t k

theorem FixedInv.next (hc : FixedInv limit c) (hok : Reliable c a)
    (h : executorSystem.next c a = some c') : FixedInv limit c' where
  toLifeInv := hc.toLifeInv.next h
  type := (settings_next h).1.trans hc.type
  settings := by
    obtain ⟨htype, hlimit, htimeout⟩ := settings_next h
    refine ⟨hlimit ▸ hc.settings.limit, ?_⟩
    rw [htype, htimeout]
    exact hc.settings.fixed
  limit_eq := (settings_next h).2.1.trans hc.limit_eq
  created := hc.created.next_of_moves h fun hpc hs =>
    ⟨(executorStep_move hs).failedToStart (hok.1.of_moves hpc), newWorker_of_step rfl hs⟩
  undecided := hc.undecided.next_of_moves h fun hpc hs =>
    ⟨(executorStep_move hs).decides hc.type
      (free_of_moves hc.undecided hpc fun t k => by cases k <;> rfl), newWorker_of_step rfl hs⟩
  waits := hc.waits.next_of_moves h fun hpc hs =>
    ⟨(executorStep_move hs).timesOut (hc.settings.fixed hc.type)
      (free_of_moves hc.waits hpc fun t k => by cases k <;> rfl) (hok.2.of_moves hpc),
      newWorker_of_step rfl hs⟩
  leaves := by
    refine hc.leaves.next h (fun t k => by cases k <;> rfl) (newWorker_of_step rfl)
      (finished_next h) ?_
    intro t pc o pc' new hpc hs _ _ hp
    exact (executorStep_move hs).isLeaving (hc.settings.fixed hc.type)
      (free_of_moves hc.waits hpc fun t k => by cases k <;> rfl) (hok.2.of_moves hpc) hp
  full := by
    refine hc.full.next h (fun t k => by cases k <;> rfl) ?_ (finished_next h) ?_
    · intro t pc s hs
      cases executorWake_cases hs <;> rfl
    · intro t pc o pc' new hpc hs hle
      refine (executorStep_move hs).toCreate hc.type hc.limit_eq
        (free_of_moves hc.undecided hpc fun t k => by cases k <;> rfl)
        (free_of_moves hc.created hpc fun t k => by cases k <;> rfl) ?_ hle
      intro hleave
      obtain ⟨-, hat⟩ := hpc.of_start (fun k => by cases k <;> rfl) hleave
      exact hc.leaves t pc hat hleave

theorem ExecutorState.Initial.fixed_inv {s : ExecutorState} (hs : s.Initial)
    (htype : s.type = .fixedThreadCountExecutor) :
    FixedInv s.workerCountLimit (executorInit s) where
  toLifeInv := hs.life
  type := htype
  settings := ⟨hs.limit, hs.fixed⟩
  limit_eq := rfl
  created t pc hpc := by
    obtain ⟨rfl, rfl⟩ := executorInit_pc hpc
    rfl
  undecided t pc hpc := by
    obtain ⟨rfl, rfl⟩ := executorInit_pc hpc
    rfl
  waits t pc hpc := by
    obtain ⟨rfl, rfl⟩ := executorInit_pc hpc
    rfl
  leaves t pc hpc hp := by
    obtain ⟨rfl, rfl⟩ := executorInit_pc hpc
    cases hp
  full := .inl (congrArg (s.workerCountLimit + ·) (hs.tally .workers nofun))

theorem executor_fixed {s : ExecutorState} (hs : s.Initial)
    (htype : s.type = .fixedThreadCountExecutor)
    (h : executorSystem.Reach Reliable (executorInit s) c) : FixedInv s.workerCountLimit c :=
  h.invariant (hs.fixed_inv htype) fun _ _ _ _ hc hok hn => hc.next hok hn

/-- The active workers of a fixed pool are in their loop, unless its queue is finished. -/
theorem FixedInv.works_of_active (hc : FixedInv limit c) (hnew : c.shared.isNew = false)
    (hpc : c.pc? t = some pc) (hactive : pc.isActive = true) :
    pc.works = true ∨ Finished c.shared := by
  cases pc with
  | startWorker k =>
    cases k with
    | newExecutor i => cases hc.inv.not_constructing hnew hpc
    | submit p => cases hc.undecided t _ hpc
  | settleWorker k error =>
    obtain rfl : error = true := hactive
    cases hc.created t _ hpc
  | workerLeave => exact .inr (hc.leaves t _ hpc rfl)
  | workerPop => exact .inl rfl
  | workerWait timeout => exact .inl rfl
  | workerRun j => exact .inl rfl
  | workerBusy p => exact .inl rfl
  | _ => cases hactive

theorem FixedInv.count_works (hc : FixedInv limit c) (hnew : c.shared.isNew = false) :
    c.count ExecutorPc.works = limit ∨ Finished c.shared := by
  by_cases hdone : Finished c.shared
  · exact .inr hdone
  have hfull := hc.full.resolve_right hdone
  have hnone : c.sumOver (ExecutorPc.toCreate limit) = 0 := by
    have hzero : c.sumOver (ExecutorPc.toCreate limit) = c.sumOver fun _ => 0 :=
      Config.sumOver_congr fun t pc hpc =>
        ExecutorPc.toCreate_of_not_constructing limit (hc.inv.not_constructing hnew hpc)
    rw [hzero]
    simp [Config.sumOver]
  have hsame : c.count ExecutorPc.works = c.count ExecutorPc.isActive := by
    refine Config.sumOver_congr fun t pc hpc => congrArg Bool.toNat ?_
    cases hactive : pc.isActive with
    | true => exact (hc.works_of_active hnew hpc hactive).resolve_right hdone
    | false =>
      rw [Bool.eq_false_iff] at hactive ⊢
      exact fun hworks => hactive (ExecutorPc.isActive_of_works hworks)
  have hactive : c.count ExecutorPc.isActive = c.shared.activeWorkerCount := hc.inv.tally .workers
  left
  omega

/-- With threads created when asked for and reliable waits, a fixed pool has exactly
    `worker_count_limit` workers in their loop from the return of `new_executor` on,
    until its queue is closed and empty. -/
theorem fixed_pool_keeps_workers {cap : WithTop ℕ} {timeout : ℕ} {allocated : Bool}
    {s : ExecutorState}
    (hs : ExecutorState.new .fixedThreadCountExecutor limit cap timeout allocated = some s)
    (h : executorSystem.Reach Reliable (executorInit s) c) (hnew : c.shared.isNew = false) :
    c.count ExecutorPc.works = limit ∨ Finished c.shared := by
  rw [← ExecutorState.workerCountLimit_of_new hs]
  exact (executor_fixed (ExecutorState.initial_of_new hs) (ExecutorState.type_of_new hs)
    h).count_works hnew

/-- In every fair run of a fixed pool with threads created when asked for and reliable
    waits, each job that is accepted is executed or cancelled. -/
theorem fixed_pool_serves {cap : WithTop ℕ} {timeout : ℕ} {allocated : Bool} {s : ExecutorState}
    (hs : ExecutorState.new .fixedThreadCountExecutor limit cap timeout allocated = some s)
    (r : ExecutorRun Reliable s) {n : ℕ} {p : JobParams}
    (haccepted : .queued p ∈ (r.config n).shared.log) :
    ∃ m, n ≤ m ∧ Ended (r.config m).shared p := by
  have hinit := ExecutorState.initial_of_new hs
  have hinv := executor_fixed hinit (ExecutorState.type_of_new hs) (r.reach n)
  have hnew := notNew_of_accepted hinit (r.reach n) haccepted
  rcases hinv.count_works hnew with hfull | hfinished
  · have hpos : 0 < (r.config n).count ExecutorPc.works := by
      rw [hfull]
      exact hinit.limit
    obtain ⟨t, pc, hpc, hworks⟩ := Config.exists_of_count_pos hpos
    exact accepted_job_ends hinit reliable_allowsWork r hpc hworks haccepted
  · have htaken : p ∉ (r.config n).shared.queuedJobs := by
      rw [ExecutorState.queuedJobs, hfinished.2]
      exact List.not_mem_nil
    obtain ⟨m, hnm, hend⟩ := taken_job_is_finished hinit reliable_allowsWork r haccepted htaken
    exact ⟨m, hnm, ended_of_finished hend⟩

end

/-- A fixed pool of two workers over an unbounded queue. -/
def fixedPool : ExecutorState :=
  (ExecutorState.new .fixedThreadCountExecutor 2 ⊤ 0 true).get rfl

/-- The pool is constructed, one worker waits for a job and the other executes one, and
    a graceful shutdown lets both complete. -/
def fixedRun : ExecutorRun Reliable fixedPool :=
  .ofCheck _
    (List.replicate 9 (.step 0 (.smooth none)) ++
      [.step 1 (.smooth none), .step 2 (.smooth none),
        .call (.submit (some 0) none none none blocking) (.smooth none),
        .step 3 (.smooth none), .step 3 (.smooth none), .wake 1, .step 1 (.smooth none),
        .step 1 (.smooth none), .step 1 (.smooth none), .step 1 (.smooth none),
        .call (.shutdown false) (.smooth none), .step 4 (.smooth none),
        .step 1 (.smooth none), .step 1 (.smooth none), .step 2 (.smooth none),
        .step 2 (.smooth none)])
    (by decide) (System.not_canStep ExecutorState.rests executorStep_eq_none (by decide))

theorem fixed_pool_keeps_workers_fixedRun :
    (fixedRun.config 9).count ExecutorPc.works = 2 ∨ Finished (fixedRun.config 9).shared :=
  fixed_pool_keeps_workers (Option.some_get _).symm (fixedRun.reach 9) (by decide)

theorem fixed_pool_serves_fixedRun :
    ∃ m, 14 ≤ m ∧ Ended (fixedRun.config m).shared ⟨3, some 0, none, none, none⟩ :=
  fixed_pool_serves (Option.some_get _).symm fixedRun (by decide)

end BoomPar
