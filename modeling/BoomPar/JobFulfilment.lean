-- SUMMARY: A promise is fulfilled before the job that fulfils it is finished.
import BoomPar.JobThreads

/-!
# Fulfilled promises and finished jobs

`execute_job` and `cancel_job` fulfil the promise of the job first and write its
state after that. Whoever reads the promise in between finds a job that may not
be deleted yet: its state is not final, and the thread that fulfilled the promise
comes back to it.
-/

namespace BoomPar

open Monitor

/-- The states in which a job may be deleted. -/
def JobState.Deletable (state : JobState) : Prop := state = .completed ∨ state = .cancelled

/-- The promise is fulfilled: reads of its result return, and its callback runs. -/
def SharedJob.fulfilled (s : SharedJob) : Bool := s.promise.promise.outputResultReady

/-- If the promise is fulfilled, the job may be deleted, and no thread that executes or
    cancels it accesses it again. -/
def FulfilledIsFinished (c : JobConfig) : Prop :=
  c.shared.fulfilled = true →
    c.shared.job.state.Deletable ∧ ∀ t pc, c.pc? t = some pc → pc.frames = []

/-- The only call that is made is one call of `k` by the owner. -/
def OnlyCall (k : JobCall) (c : JobConfig) : Act PromiseReader JobOutcome → Prop
  | .step t (.call k' _) => t = 0 ∧ k' = k ∧ c.shared.nextCall = 0
  | _ => True

instance (k : JobCall) (c : JobConfig) :
    (a : Act PromiseReader JobOutcome) → Decidable (OnlyCall k c a)
  | .step t (.call k' _) => inferInstanceAs (Decidable (t = 0 ∧ k' = k ∧ c.shared.nextCall = 0))
  | .step _ (.proceed _) => .isTrue trivial
  | .call _ _ => .isTrue trivial
  | .wake _ => .isTrue trivial

/-! ## Before the promise is fulfilled -/

/-- The state of a job whose promise is not fulfilled. -/
structure Unfinished (params : JobParams) (s : SharedJob) : Prop where
  params_eq : s.job.params = params
  state : s.fulfilled = false → s.job.state = .created ∨ s.job.state = .running

/-- A thread reads the promise, or is in calls that have not come past fulfilling it. -/
structure BeforeFulfilment (s : SharedJob) (pc : JobPc) : Prop where
  frames : s.fulfilled = false → ∀ f ∈ pc.frames, 1 < f.point.rank
  reads : ∀ res, pc ≠ .observer (.setResult res)

theorem BeforeFulfilment.keep {s s' : SharedJob} {pc : JobPc} (h : BeforeFulfilment s pc)
    (hkept : s.fulfilled = true → s'.fulfilled = true) : BeforeFulfilment s' pc where
  frames hnot := h.frames (Bool.eq_false_iff.mpr fun hs => by
    rw [hkept hs] at hnot
    cases hnot)
  reads := h.reads

theorem beforeFulfilment_withFrames {s : SharedJob} {pc : JobPc} (hstack : pc.hasStack = true)
    {gs : List JobFrame} (hframes : s.fulfilled = false → ∀ f ∈ gs, 1 < f.point.rank) :
    BeforeFulfilment s (pc.withFrames gs) where
  frames hnot f hf := hframes hnot f (JobPc.frames_withFrames hstack gs ▸ hf)
  reads res h := by
    have hstack' := JobPc.hasStack_withFrames pc gs
    rw [h, hstack] at hstack'
    cases hstack'

/-- A call of a job with a promise comes to fulfilling it after the code of the user. -/
theorem rank_afterUserCode {j : Job} (h : j.params.promiseForOutput ≠ none) (output : Ptr) :
    1 < (j.afterUserCode output).rank := by
  rw [Job.afterUserCode, if_neg h]
  exact Nat.lt_succ_self 1

/-- Whoever reads the promise does not fulfil it. -/
theorem PromiseMove.reads {s s' : PromiseState} {t : ℕ} {pc pc' : PromisePc}
    (h : PromiseMove s t pc s' pc') (hpc : ∀ res, pc ≠ .setResult res) :
    s'.promise.outputResultReady = s.promise.outputResultReady ∧ ∀ res, pc' ≠ .setResult res := by
  have hafter : ∀ pcc r res, PromisePc.after pcc r ≠ .setResult res := by
    intro pcc r res
    cases pcc <;> exact nofun
  cases h with
  | resultWins res _ => exact absurd rfl (hpc res)
  | resultLoses res _ => exact absurd rfl (hpc res)
  | got pc _ _ => exact ⟨rfl, nofun⟩
  | wait pc _ _ => exact ⟨rfl, nofun⟩
  | isReady => exact ⟨rfl, nofun⟩
  | callbackWins pcc run _ _ => exact ⟨rfl, hafter _ _⟩
  | callbackLoses pcc first _ => exact ⟨rfl, nofun⟩
  | invoke pcc r => exact ⟨rfl, nofun⟩

section Moves

variable {params : JobParams} {s s' : SharedJob}

theorem CallMove.beforeFulfilment {k : JobCall} {error : ℕ} {fs : List JobFrame} {new : List JobPc}
    (h : CallMove s k error s' fs new) (hpromise : params.promiseForOutput ≠ none)
    (hs : Unfinished params s) :
    Unfinished params s' ∧ s'.fulfilled = s.fulfilled ∧ (∀ f ∈ fs, 1 < f.point.rank) ∧
      ∀ q ∈ new, BeforeFulfilment s' q := by
  cases h with
  | refused _ _ res _ _ => exact ⟨⟨hs.params_eq, hs.state⟩, rfl, nofun, nofun⟩
  | executeJob _ _ =>
    exact ⟨⟨hs.params_eq, fun _ => .inr rfl⟩, rfl, by simp [JobPoint.rank], nofun⟩
  | executeJobAsync _ =>
    refine ⟨⟨hs.params_eq, hs.state⟩, rfl, nofun, fun q hq => ?_⟩
    rw [List.mem_singleton.mp hq]
    exact ⟨fun _ => nofun, nofun⟩
  | cancelJob _ log point _ hpoint =>
    refine ⟨⟨hs.params_eq, hs.state⟩, rfl, fun f hf => ?_, nofun⟩
    rw [List.mem_singleton.mp hf]
    obtain ⟨-, -, rfl⟩ | ⟨-, -, rfl⟩ := hpoint
    · exact rank_afterUserCode (hs.params_eq ▸ hpromise) none
    · simp [JobPoint.rank]

/-- A frame that goes on fulfils the promise, or does not come past fulfilling it. -/
theorem FrameMove.beforeFulfilment {point point' : JobPoint} {promise : PromiseState}
    (h : FrameMove s point promise point') (hpromise : s.job.params.promiseForOutput ≠ none)
    (hbefore : s.fulfilled = false → 1 < point.rank) :
    (s.fulfilled = true → promise.promise.outputResultReady = true) ∧
      (promise.promise.outputResultReady = false → s.fulfilled = false ∧ 1 < point'.rank) := by
  cases h with
  | returned point output _ => exact ⟨id, fun hnot => ⟨hnot, rank_afterUserCode hpromise output⟩⟩
  | published output promise point hready _ =>
    refine ⟨fun _ => hready, fun hnot => ?_⟩
    rw [hready] at hnot
    cases hnot
  | callbackReturned pcc => exact ⟨id, fun hnot => absurd (hbefore hnot) (Nat.lt_irrefl 1)⟩

/-- What a step makes of a job whose promise is not fulfilled. -/
structure FulfilmentStep (params : JobParams) (s s' : SharedJob) (pc' : JobPc)
    (new : List JobPc) : Prop where
  unfinished : Unfinished params s'
  self : BeforeFulfilment s' pc'
  new : ∀ q ∈ new, BeforeFulfilment s' q
  kept : s.fulfilled = true → s'.fulfilled = true
  /-- The step that fulfils the promise leaves the job as it is. -/
  fulfils : s.fulfilled = false → s'.fulfilled = true → s'.job = s.job

theorem JobThreadMove.fulfilmentStep {t : ℕ} {pc pc' : JobPc} {o : JobOutcome} {new : List JobPc}
    (h : JobThreadMove s t pc o s' pc' new) (hpromise : params.promiseForOutput ≠ none)
    (hs : Unfinished params s) (hpc : BeforeFulfilment s pc) :
    FulfilmentStep params s s' pc' new := by
  cases h with
  | call _ k error _ fs _ huser hmove =>
    obtain ⟨hs', hsame, hfs, hnew⟩ := hmove.beforeFulfilment hpromise hs
    refine ⟨hs', ?_, hnew, fun hready => hsame.trans hready, fun hnot hready => ?_⟩
    · refine beforeFulfilment_withFrames (JobPc.hasStack_of_inUserCode huser) fun hnot f hf => ?_
      obtain hf | hf := List.mem_append.mp hf
      · exact hfs f hf
      · exact hpc.frames (hsame ▸ hnot) f hf
    · rw [hsame, hnot] at hready
      cases hready
  | started n res _ =>
    refine ⟨⟨hs.params_eq, fun _ => .inr rfl⟩, ⟨fun _ f hf => ?_, nofun⟩, nofun, id,
      fun hnot hready => ?_⟩
    · rw [List.mem_singleton.mp hf]
      simp [JobPoint.rank]
    · rw [SharedJob.fulfilled] at hnot hready
      rw [hnot] at hready
      cases hready
  | late n res _ => exact ⟨hs, ⟨fun _ => nofun, nofun⟩, nofun, id, fun _ _ => rfl⟩
  | advance _ f fs res promise point hframes hmove =>
    have hbefore : s.fulfilled = false → ∀ g ∈ f :: fs, 1 < g.point.rank :=
      fun hnot g hg => hpc.frames hnot g (hframes ▸ hg)
    obtain ⟨hkept, hnext⟩ := hmove.beforeFulfilment (hs.params_eq ▸ hpromise)
      fun hnot => hbefore hnot f List.mem_cons_self
    refine ⟨⟨hs.params_eq, fun hnot => hs.state (hnext hnot).1⟩,
      beforeFulfilment_withFrames (JobPc.hasStack_of_frames hframes) fun hnot => ?_, nofun,
      hkept, fun _ _ => rfl⟩
    obtain ⟨hnot, hrank⟩ := hnext hnot
    exact List.forall_mem_cons.mpr ⟨hrank, (List.forall_mem_cons.mp (hbefore hnot)).2⟩
  | finished _ f fs res hframes hpoint =>
    -- the state is written after the promise is fulfilled
    have hready : s.fulfilled = true := by
      by_contra hnot
      have hrank := hpc.frames (Bool.eq_false_iff.mpr hnot) f (hframes ▸ List.mem_cons_self)
      rw [hpoint] at hrank
      cases hrank
    have hready' : (s.setState f).fulfilled = true := hready
    refine ⟨⟨hs.params_eq, fun hnot => ?_⟩,
      beforeFulfilment_withFrames (JobPc.hasStack_of_frames hframes) fun hnot => ?_, nofun,
      fun _ => hready, fun hnot => ?_⟩
    · rw [hready'] at hnot
      cases hnot
    · rw [hready'] at hnot
      cases hnot
    · rw [hready] at hnot
      cases hnot
  | observed q q' res promise hmove =>
    -- readers never fulfil the promise
    obtain ⟨hsame, hreads⟩ := hmove.reads fun res hq => hpc.reads res (hq ▸ rfl)
    have hfulfilled : ({ s with promise := promise } : SharedJob).fulfilled = s.fulfilled := hsame
    refine ⟨⟨hs.params_eq, fun hnot => hs.state (hfulfilled ▸ hnot)⟩, ⟨fun _ => nofun, ?_⟩, nofun,
      fun hready => hfulfilled.trans hready, fun _ _ => rfl⟩
    intro res hq'
    exact hreads res (JobPc.observer.inj hq')

end Moves

/-! ## Runs -/

section Runs

variable {params : JobParams} {c c' : JobConfig}

theorem fulfilment_upholds (hpromise : params.promiseForOutput ≠ none) :
    System.Upholds jobSystem (Unfinished params) BeforeFulfilment where
  start s t k := ⟨fun _ => nofun, fun res h => by cases k <;> cases h⟩
  step hs hunfinished hpc := by
    have hstep := (jobStep_move hs).fulfilmentStep hpromise hunfinished hpc
    exact ⟨hstep.unfinished, hstep.self, hstep.new, fun q hq => hq.keep hstep.kept⟩
  wake hw hunfinished := by
    obtain ⟨cv, rfl⟩ := jobWake_frame hw
    exact ⟨⟨hunfinished.params_eq, hunfinished.state⟩, fun q hq => hq.keep id⟩

theorem beforeFulfilment_reach (hpromise : params.promiseForOutput ≠ none)
    (h : JobReach params c) :
    Unfinished params c.shared ∧ System.Threadwise (fun s _ => BeforeFulfilment s) c := by
  refine (fulfilment_upholds hpromise).reach ⟨rfl, fun _ => .inl rfl⟩ (fun t pc hpc => ?_) h
  cases t with
  | zero =>
    cases hpc
    exact ⟨fun _ => nofun, nofun⟩
  | succ t => cases hpc

/-- The transition that fulfils the promise leaves the job as it is, unfinished. -/
theorem unfinished_of_fulfils (hpromise : params.promiseForOutput ≠ none)
    (h : JobReach params c) {a : Act PromiseReader JobOutcome}
    (hnext : jobSystem.next c a = some c') (hnot : c.shared.fulfilled = false)
    (hfulfilled : c'.shared.fulfilled = true) : ¬c'.shared.job.state.Deletable := by
  obtain ⟨hunfinished, hthreads⟩ := beforeFulfilment_reach hpromise h
  have hsame : c'.shared.job = c.shared.job := by
    refine System.Moves.stable (R := fun s => s.fulfilled = true → s.job = c.shared.job) hnext
      ?_ ?_ (fun _ => rfl) hfulfilled
    · intro t pc o s' pc' new hmoves hs _ hready
      have hpc : BeforeFulfilment c.shared pc := by
        obtain ⟨-, hpc⟩ | ⟨k, -, rfl⟩ := hmoves
        · exact hthreads t pc hpc
        · exact (fulfilment_upholds hpromise).start _ t k
      exact ((jobStep_move hs).fulfilmentStep hpromise hunfinished hpc).fulfils hnot hready
    · intro t pc s' hw _ _
      obtain ⟨cv, rfl⟩ := jobWake_frame hw
      rfl
  rw [hsame]
  rintro (hstate | hstate) <;> obtain hbefore | hbefore := hunfinished.state hnot <;>
    rw [hstate] at hbefore <;> cases hbefore

/-- One call, up to the point where its thread fulfilled the promise, and a read of it. -/
def fulfillingRun (cancellationCallback : Ptr) : JobCall → List (Act PromiseReader JobOutcome)
  | .executeJob =>
    [.step 0 (.call .executeJob 0), .step 0 (.proceed none), .step 0 (.proceed none),
      .call .getResult (.proceed none)]
  | .executeJobAsync =>
    [.step 0 (.call .executeJobAsync 0), .step 1 (.proceed none), .step 1 (.proceed none),
      .step 1 (.proceed none), .call .getResult (.proceed none)]
  | .cancelJob =>
    match cancellationCallback with
    | none =>
      [.step 0 (.call .cancelJob 0), .step 0 (.proceed none), .call .getResult (.proceed none)]
    | some _ =>
      [.step 0 (.call .cancelJob 0), .step 0 (.proceed none), .step 0 (.proceed none),
        .call .getResult (.proceed none)]

theorem read_unfinished (hpromise : params.promiseForOutput ≠ none) (k : JobCall) :
    ∃ c t res, jobSystem.Reach (OnlyCall k) (jobInit params) c ∧
      c.pc? t = some (.observer (.returned (.got res))) ∧ ¬FulfilledIsFinished c := by
  obtain ⟨name, jobFunction, inputP, promise, cancellationCallback⟩ := params
  cases promise with
  | none => exact absurd rfl hpromise
  | some p =>
    have hunfinished : ∀ {c : JobConfig} {state : JobState}, c.shared.fulfilled = true →
        c.shared.job.state = state → state = .created ∨ state = .running →
        ¬FulfilledIsFinished c := by
      rintro c _ hready rfl hstate hfinished
      obtain ⟨hcompleted | hcancelled, -⟩ := hfinished hready
      · rw [hcompleted] at hstate
        obtain hstate | hstate := hstate <;> cases hstate
      · rw [hcancelled] at hstate
        obtain hstate | hstate := hstate <;> cases hstate
    have hreach := fun cancellationCallback k =>
      System.Reach.checkedRun (S := jobSystem) (OnlyCall k)
        (jobInit ⟨name, jobFunction, inputP, some p, cancellationCallback⟩)
        (fulfillingRun cancellationCallback k)
    cases k with
    | executeJob =>
      exact ⟨_, 1, none, hreach cancellationCallback _ rfl, rfl, hunfinished rfl rfl (.inr rfl)⟩
    | executeJobAsync =>
      exact ⟨_, 2, none, hreach cancellationCallback _ rfl, rfl, hunfinished rfl rfl (.inr rfl)⟩
    | cancelJob =>
      cases cancellationCallback with
      -- with a callback the run is one step longer
      | none => exact ⟨_, 1, none, hreach none _ rfl, rfl, hunfinished rfl rfl (.inl rfl)⟩
      | some f => exact ⟨_, 1, none, hreach (some f) _ rfl, rfl, hunfinished rfl rfl (.inl rfl)⟩

end Runs

/-! ## A fulfilled promise and a finished job -/

/-- Whoever finds the promise fulfilled may find the job unfinished: always at first, and
    however the job is executed or cancelled. -/
theorem fulfilled_never_finished {params : JobParams} (hpromise : params.promiseForOutput ≠ none) :
    (∀ c a c', JobReach params c → jobSystem.next c a = some c' → c.shared.fulfilled = false →
      c'.shared.fulfilled = true → ¬FulfilledIsFinished c') ∧
    ∀ k, ∃ c t res, jobSystem.Reach (OnlyCall k) (jobInit params) c ∧
      c.pc? t = some (.observer (.returned (.got res))) ∧ ¬FulfilledIsFinished c := by
  refine ⟨fun c a c' h hnext hnot hfulfilled hfinished => ?_, read_unfinished hpromise⟩
  exact unfinished_of_fulfils hpromise h hnext hnot hfulfilled (hfinished hfulfilled).1

/-- A job with a promise. -/
def promisedJob : JobParams := ⟨0, some 0, none, some 1, none⟩

theorem fulfilled_never_finished_promisedJob :
    (∀ c a c', JobReach promisedJob c → jobSystem.next c a = some c' →
      c.shared.fulfilled = false → c'.shared.fulfilled = true → ¬FulfilledIsFinished c') ∧
    ∀ k, ∃ c t res, jobSystem.Reach (OnlyCall k) (jobInit promisedJob) c ∧
      c.pc? t = some (.observer (.returned (.got res))) ∧ ¬FulfilledIsFinished c :=
  fulfilled_never_finished (by decide)

/-- A client has the result of a job that another thread executes. -/
def fulfilledJob : JobConfig :=
  jobSystem.run (jobInit promisedJob) (fulfillingRun none .executeJobAsync) (by decide)

theorem not_fulfilled_finished : ¬∀ c, JobReach promisedJob c → FulfilledIsFinished c := by
  intro hfinished
  obtain ⟨hstate | hstate, -⟩ := hfinished fulfilledJob (.run _ _ _) (by decide)
  · exact absurd hstate (by decide)
  · exact absurd hstate (by decide)

end BoomPar
