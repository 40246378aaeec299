-- SUMMARY: The order in which the executor begins jobs: that of their acceptance, up to the jobs that other workers are about to run.
import BoomPar.ExecutorService

/-!
# Order of the jobs

The queue is first in, first out, but a worker calls the function of a job only
after it has left the queue. Between the two sections other workers may overtake
it, so the order of the calls is that of acceptance up to the number of workers.
-/

namespace BoomPar

open Monitor

/-- The job whose push succeeded with the event. -/
def ExecutorEvent.queued? : ExecutorEvent → Option JobParams
  | .queued p => some p
  | _ => none

/-- The function of the job was called, or the job taken out to be cancelled. -/
def ExecutorEvent.begins (p : JobParams) : ExecutorEvent → Bool
  | .invoked p' => p' = p
  | .discarded _ p' => p' = p
  | _ => false

namespace ExecutorState

/-- The accepted jobs in the order of their acceptance. -/
def accepted (s : ExecutorState) : List JobParams := s.log.filterMap ExecutorEvent.queued?

/-- The job has been begun. -/
def begun (s : ExecutorState) (p : JobParams) : Bool := s.log.any (ExecutorEvent.begins p)

end ExecutorState

/-- The job that a worker took out of the queue and has not called yet. -/
def ExecutorPc.awaiting? : ExecutorPc → Option JobParams
  | .workerRun j => some j.params
  | _ => none

/-- A worker that has a job and has not called its function. -/
def ExecutorPc.isAboutToRun (pc : ExecutorPc) : Bool := pc.awaiting?.isSome

/-! ## The queue in the order of acceptance -/

section Move

variable {s s' : ExecutorState} {t : ℕ} {o : Env} {pc pc' : ExecutorPc}

theorem ExecutorState.accepted_fulfil (s : ExecutorState) (promise v : Ptr) :
    (s.fulfil promise v).accepted = s.accepted := by
  cases promise with
  | none => rfl
  | some q =>
    simp only [accepted, fulfil, List.filterMap_append]
    split <;> simp [ExecutorEvent.queued?]

theorem ExecutorState.accepted_finishJob (s : ExecutorState) (p : JobParams) (v : Ptr) :
    (s.finishJob p v).accepted = s.accepted := by
  rw [finishJob, accepted_fulfil]
  simp [accepted, ExecutorEvent.queued?]

theorem ExecutorState.accepted_cancelJob (s : ExecutorState) (t : ℕ) (j : Job) :
    (s.cancelJob t j).accepted = s.accepted := by
  unfold cancelJob
  split
  · rfl
  · rw [accepted_fulfil]
    simp only [accepted, List.filterMap_append]
    split <;> simp [ExecutorEvent.queued?]

/-- What is queued are the last of the accepted jobs. -/
theorem JobMove.accepted (h : JobMove s t o pc s' pc') (hs : s.queuedJobs <:+ s.accepted) :
    s'.queuedJobs <:+ s'.accepted := by
  cases h with
  | idle _ _ _ _ _ _ hcontents hlog _ =>
    unfold ExecutorState.queuedJobs ExecutorState.accepted at *
    rwa [hcontents, hlog]
  | queue _ _ _ j _ _ _ _ hcontents hlog _ =>
    unfold ExecutorState.queuedJobs ExecutorState.accepted at *
    rw [hcontents, hlog, List.map_append, List.filterMap_append]
    obtain ⟨taken, htaken⟩ := hs
    refine ⟨taken, ?_⟩
    rw [← List.append_assoc, htaken]
    rfl
  | take _ _ j _ _ hcons hlog _ =>
    unfold ExecutorState.queuedJobs ExecutorState.accepted at *
    rw [hcons, List.map_cons] at hs
    rw [hlog]
    exact (List.suffix_cons _ _).trans hs
  | discard k _ j hcons hlog _ =>
    unfold ExecutorState.queuedJobs ExecutorState.accepted at *
    rw [hcons, List.map_cons] at hs
    rw [hlog, List.filterMap_append]
    simp only [List.filterMap_cons, ExecutorEvent.queued?, List.filterMap_nil, List.append_nil]
    exact (List.suffix_cons _ _).trans hs
  | invoke j =>
    unfold ExecutorState.accepted at *
    rw [List.filterMap_append]
    simp only [List.filterMap_cons, ExecutorEvent.queued?, List.filterMap_nil, List.append_nil]
    exact hs
  | finish p =>
    obtain ⟨_, _, hframe⟩ := s.finishJob_frame p o.output
    rw [s.accepted_finishJob, hframe]
    exact hs
  | cancel k j _ =>
    obtain ⟨_, _, hframe⟩ := s.cancelJob_frame t j
    rw [s.accepted_cancelJob, hframe]
    exact hs

end Move

variable {c : ExecutorConfig}

theorem executor_accepted {s : ExecutorState} (hs : s.Initial)
    {ok : ExecutorConfig → Act ExecutorCall Env → Prop}
    (h : executorSystem.Reach ok (executorInit s) c) :
    c.shared.queuedJobs <:+ c.shared.accepted := by
  have hboth : JobsInv c ∧ c.shared.queuedJobs <:+ c.shared.accepted := by
    refine h.invariant (P := fun c => JobsInv c ∧ c.shared.queuedJobs <:+ c.shared.accepted)
      ⟨hs.jobs, ?_⟩ ?_
    · rw [ExecutorState.queuedJobs, executorInit, hs.queue]
      exact List.nil_suffix
    · intro c a c' _ hc _ hn
      refine ⟨hc.1.next hn, ?_⟩
      refine System.Moves.stable (R := fun s => s.queuedJobs <:+ s.accepted) hn ?_ ?_ hc.2
      · exact fun hpc hs => ((executorStep_move hs).jobs (hc.1.created.fresh hpc)).accepted
      · intro t pc s hs hlast
        unfold ExecutorState.queuedJobs ExecutorState.accepted at *
        rw [(executorWake_cases hs).contents_eq]
        cases executorWake_cases hs <;> exact hlast
  exact hboth.2

/-! ## Jobs before others -/

theorem count_accepted (s : ExecutorState) (p : JobParams) :
    s.accepted.count p = s.log.count (.queued p) := by
  unfold ExecutorState.accepted
  induction s.log with
  | nil => rfl
  | cons e log ih =>
    cases e with
    | queued p' =>
      simp only [List.filterMap_cons, ExecutorEvent.queued?, List.count_cons, ih]
      simp
    | _ =>
      simp only [List.filterMap_cons, ExecutorEvent.queued?, List.count_cons, ih]
      simp

theorem LifeInv.nodup_accepted (hc : LifeInv c) : c.shared.accepted.Nodup := by
  rw [List.nodup_iff_count_le_one]
  intro p
  rw [count_accepted]
  exact hc.queued_le_one p

/-- What comes before an element that is not among the last ones is not among them. -/
theorem notMem_of_before {α : Type*} {l before after : List α} {x y : α}
    (hlast : l <:+ before ++ x :: after) (hnodup : (before ++ x :: after).Nodup)
    (hx : x ∉ l) (hy : y ∈ before) : y ∉ l := by
  obtain ⟨taken, htaken⟩ := hlast
  rcases List.append_eq_append_iff.mp htaken with ⟨b, rfl, hl⟩ | ⟨a, rfl, hl⟩
  · -- the last elements would contain `x`
    rw [hl] at hx
    exact absurd (List.mem_append_right b (List.mem_cons_self)) hx
  · rw [← htaken] at hnodup
    intro hmem
    exact (List.nodup_append.mp hnodup).2.2 y (List.mem_append_left a hy) y hmem rfl

/-- A job that was accepted, is not queued and has not begun is with a worker that is
    about to run it. -/
theorem LifeInv.awaiting_of_not_begun (hc : LifeInv c) {p : JobParams}
    (haccepted : p ∈ c.shared.accepted) (htaken : p ∉ c.shared.queuedJobs)
    (hnot : c.shared.begun p = false) :
    ∃ t pc, c.pc? t = some pc ∧ pc.awaiting? = some p := by
  have hevent : ∀ e ∈ c.shared.log, ExecutorEvent.begins p e = false := by
    intro e he
    rw [Bool.eq_false_iff]
    exact fun hp => Bool.eq_false_iff.mp hnot (List.any_eq_true.mpr ⟨e, he, hp⟩)
  have hinvoked : c.shared.log.count (.invoked p) = 0 := List.count_eq_zero.mpr fun hmem =>
    absurd (hevent _ hmem) (by simp [ExecutorEvent.begins])
  have hdiscarded : ∀ u, c.shared.log.count (.discarded u p) = 0 := fun u =>
    List.count_eq_zero.mpr fun hmem =>
      absurd (hevent _ hmem) (by simp [ExecutorEvent.begins])
  have hruns := hc.jobs.invoked p
  have htokens := hc.jobs.tokens p
  have hqueued : c.shared.inQueue p = 0 := List.count_eq_zero.mpr htaken
  have hpos : 0 < c.shared.log.count (.queued p) := by
    rw [← count_accepted]
    exact List.count_pos_iff.mpr haccepted
  have hcancels : c.shared.log.countP (ExecutorEvent.cancels p) = 0 := by
    rw [List.countP_eq_zero]
    intro e he hp
    cases e with
    | cancelled u p' =>
      obtain rfl : p' = p := of_decide_eq_true hp
      have hdiscards := hc.jobs.discards u p'
      have hmem := List.count_pos_iff.mpr he
      rw [hdiscarded u] at hdiscards
      omega
    | _ => cases hp
  have hheld : 0 < c.count (ExecutorPc.holds p) := by
    rw [ExecutorState.finished, hcancels, hqueued] at htokens
    omega
  obtain ⟨t, pc, hpc, hp⟩ := Config.exists_of_count_pos hheld
  refine ⟨t, pc, hpc, ?_⟩
  cases pc with
  | workerRun j =>
    obtain hsame : j.params = p := of_decide_eq_true hp
    rw [ExecutorPc.awaiting?, hsame]
  | workerBusy p' =>
    have hexecutes : 0 < c.count (ExecutorPc.executes p) := Config.count_pos hpc hp
    omega
  | discardCancel k j =>
    have hcancel := hc.jobs.discards t p
    have hcancels : (ExecutorPc.discardCancel k j).cancels p = true := hp
    rw [hdiscarded t, hpc, Option.any_some, hcancels, Bool.toNat_true] at hcancel
    omega
  | _ => cases hp

/-- Jobs that workers are about to run are no more than these workers. -/
theorem length_le_count_isAboutToRun {l : List JobParams} (hl : l.Nodup)
    (h : ∀ p ∈ l, ∃ t pc, c.pc? t = some pc ∧ pc.awaiting? = some p) :
    l.length ≤ c.count ExecutorPc.isAboutToRun := by
  have hsub : (l.map some).toFinset ⊆
      (c.those ExecutorPc.isAboutToRun).image fun t => (c.pc? t).bind ExecutorPc.awaiting? := by
    intro x hx
    obtain ⟨p, hp, rfl⟩ := List.mem_map.mp (List.mem_toFinset.mp hx)
    obtain ⟨t, pc, hpc, hawaits⟩ := h p hp
    refine Finset.mem_image.mpr ⟨t, Config.mem_those.mpr ⟨pc, hpc, ?_⟩, ?_⟩
    · rw [ExecutorPc.isAboutToRun, hawaits]
      rfl
    · rw [hpc, Option.bind_some, hawaits]
  calc l.length
    _ = (l.map some).toFinset.card := by
        rw [List.toFinset_card_of_nodup (hl.map (Option.some_injective _)), List.length_map]
    _ ≤ (c.those ExecutorPc.isAboutToRun).card :=
        (Finset.card_le_card hsub).trans Finset.card_image_le
    _ = c.count ExecutorPc.isAboutToRun := Config.card_those c _

/-- Workers that are about to run a job and workers inside a job function are active. -/
theorem ExecutorInv.count_running_le (hc : ExecutorInv c) :
    c.count ExecutorPc.isAboutToRun + c.count ExecutorPc.isExecuting ≤
      c.shared.activeWorkerCount := by
  have hactive : c.count ExecutorPc.isActive = c.shared.activeWorkerCount := hc.tally .workers
  rw [← hactive]
  refine Config.count_add_le fun pc => ?_
  cases pc <;> first | exact Nat.zero_le _ | exact le_rfl

/-- At most `worker_count_limit` job functions run at a time, and while a job runs, fewer
    than that of the jobs accepted before it have not been begun. With one worker the
    jobs are executed one after the other in the order of their acceptance. -/
theorem bounded_overtaking {type : ExecutorType} {limit : ℕ} {cap : WithTop ℕ} {timeout : ℕ}
    {allocated : Bool} {s : ExecutorState}
    (hnew : ExecutorState.new type limit cap timeout allocated = some s)
    (h : ExecutorReach s c) :
    c.count ExecutorPc.isExecuting ≤ limit ∧
      ∀ t p before after, c.pc? t = some (.workerBusy p) →
        c.shared.accepted = before ++ p :: after →
        (before.filter fun p' => !c.shared.begun p').length < limit := by
  have hs := ExecutorState.initial_of_new hnew
  have hc := executor_life hs h
  have hlimit : c.shared.activeWorkerCount ≤ limit := by
    rw [← ExecutorState.workerCountLimit_of_new hnew, ← (settings_reach h).2.1]
    exact hc.inv.shared.limit
  have hrunning := hc.inv.count_running_le.trans hlimit
  refine ⟨(Nat.le_add_left _ _).trans hrunning, ?_⟩
  intro t p before after hpc haccepted
  have hnodup := hc.nodup_accepted
  have hlast := executor_accepted hs h
  have htaken : p ∉ c.shared.queuedJobs := by
    intro hmem
    have htokens := hc.jobs.tokens p
    have hone := hc.queued_le_one p
    have hqueued : 0 < c.shared.inQueue p := List.count_pos_iff.mpr hmem
    have hholds : 0 < c.count (ExecutorPc.holds p) := Config.count_pos hpc (decide_eq_true rfl)
    omega
  have hexecuting : 0 < c.count ExecutorPc.isExecuting := Config.count_pos hpc rfl
  rw [haccepted] at hlast hnodup
  have hle : (before.filter fun p' => !c.shared.begun p').length ≤
      c.count ExecutorPc.isAboutToRun := by
    refine length_le_count_isAboutToRun ((List.nodup_append.mp hnodup).1.filter _) ?_
    intro p' hp'
    obtain ⟨hbefore, hnot⟩ := List.mem_filter.mp hp'
    refine hc.awaiting_of_not_begun ?_ (notMem_of_before hlast hnodup htaken hbefore)
      (by simpa using hnot)
    rw [haccepted]
    exact List.mem_append_left _ hbefore
  omega

/-- The one worker runs the second job, after the first. -/
def secondJob : ExecutorConfig :=
  executorSystem.run (executorInit cachedPool)
    ([.step 0 (.smooth none), .call (.submit (some 0) none none none blocking) (.smooth none)] ++
      List.replicate 6 (.step 1 (.smooth none)) ++
      [.call (.submit (some 0) none none none blocking) (.smooth none),
        .step 3 ⟨.resize 2, true, false, none⟩] ++
      List.replicate 5 (.step 2 (.smooth none))) (by decide)

theorem bounded_overtaking_secondJob :
    secondJob.count ExecutorPc.isExecuting ≤ 1 ∧
      ([⟨1, some 0, none, none, none⟩].filter fun p' => !secondJob.shared.begun p').length < 1 :=
  have h := bounded_overtaking (Option.some_get _).symm (.run _ _ _)
  ⟨h.1, h.2 2 ⟨3, some 0, none, none, none⟩ [_] [] (by decide) (by decide)⟩

end BoomPar
