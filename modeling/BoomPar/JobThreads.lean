-- SUMMARY: The threads of one job: its owner with nested calls, the threads that execute it, and those that read its promise.
import BoomPar.Job
import BoomPar.PromiseThreads

/-!
# Threads of a job

Thread 0 owns the job and calls its functions one after another. The function of
the job, its cancellation callback and the callback of its promise are code of
the user, and may call them again, so a thread has a stack of the calls that it is
in. `execute_job_async` leaves the job to a new thread, which comes to its test of
the state at any later moment. No lock protects the state; every step here makes
one access to it, or one to the promise.
-/

namespace BoomPar

open Monitor

/-- The functions that execute or cancel a job. -/
inductive JobCall where
  | executeJob
  | executeJobAsync
  | cancelJob
  deriving DecidableEq

/-- `INVALID_JOB_STATE`, the smallest `int`. -/
def invalidJobState : ℤ := -2 ^ 31

/-- What a call returns for success. -/
def JobCall.success : JobCall → ℤ
  | .executeJob => 1
  | .executeJobAsync => 0
  | .cancelJob => 1

/-- What the calls do, in order. A call has a number. -/
inductive JobEvent where
  | reported (n : ℕ) (k : JobCall) (res : ℤ)
  /-- The function of the job was called. -/
  | invoked (n : ℕ)
  | cancellationCalled (n : ℕ)
  /-- The state was written. -/
  | moved (n : ℕ) (before after : JobState)
  deriving DecidableEq

/-- Where a call stands that passed its test of the state. -/
inductive JobPoint where
  /-- In the function of the job. -/
  | jobFunction
  | cancellationCallback
  /-- About to fulfil the promise. -/
  | setResult (output : Ptr)
  /-- In the callback of the promise, in `set_promised_result`. -/
  | promiseCallback (pcc : ℕ)
  /-- About to write the state that the call ends in. -/
  | setState
  deriving DecidableEq

/-- The code of the user runs, and may call the functions of the job. -/
def JobPoint.inUserCode : JobPoint → Bool
  | .jobFunction => true
  | .cancellationCallback => true
  | .promiseCallback _ => true
  | _ => false

/-- The function that a frame belongs to: `execute_wrapper` reports nothing. -/
inductive JobFrameKind where
  | executeJob
  | executeWrapper
  | cancelJob
  deriving DecidableEq

structure JobFrame where
  call : ℕ
  kind : JobFrameKind
  point : JobPoint
  deriving DecidableEq

/-- The control state of a thread. -/
inductive JobPc where
  /-- The owner, with the calls that it is in, innermost first. -/
  | owner (frames : List JobFrame)
  /-- A thread of `execute_job_async` that has not come to its test of the state. -/
  | spawned (n : ℕ)
  /-- A thread of `execute_job_async` past that test. -/
  | executing (frames : List JobFrame)
  /-- A thread that reads the promise. -/
  | observer (pc : PromisePc)
  deriving DecidableEq

/-- What the environment decides in a step. -/
inductive JobOutcome where
  /-- The code of the user makes a call; `error` is what `pthread_create` returns in it. -/
  | call (k : JobCall) (error : ℕ)
  /-- The thread goes on; `res` is what the code of the user returns, if it runs. -/
  | proceed (res : Ptr)
  deriving DecidableEq

/-- The calls of the threads that read the promise. -/
inductive PromiseReader where
  | getResult
  | isReady
  | setCallback (pcc : ℕ)
  deriving DecidableEq

def PromiseReader.start : PromiseReader → PromisePc
  | .getResult => .getResult
  | .isReady => .isReady
  | .setCallback pcc => .setCallback pcc

/-- A job, its promise, and the record of its calls. -/
structure SharedJob where
  job : Job
  promise : PromiseState
  nextCall : ℕ
  log : List JobEvent
  deriving DecidableEq

abbrev JobConfig := Config SharedJob JobPc

/-- Where a call stands once the code of the user returned `output`. -/
def Job.afterUserCode (j : Job) (output : Ptr) : JobPoint :=
  if j.params.promiseForOutput = none then .setState else .setResult output

/-- The state that a call ends in. -/
def JobFrameKind.finalState : JobFrameKind → JobState
  | .executeJob => .completed
  | .executeWrapper => .completed
  | .cancelJob => .cancelled

/-- What a call reports at its end. -/
def JobFrameKind.reports : JobFrameKind → Option JobCall
  | .executeJob => some .executeJob
  | .executeWrapper => none
  | .cancelJob => some .cancelJob

namespace SharedJob

/-- Append events to the log. -/
def record (s : SharedJob) (log : List JobEvent) : SharedJob := { s with log := s.log ++ log }

/-- `execute_job` up to the call of the function; `none` when it returns 0. -/
def executeJob (s : SharedJob) (n : ℕ) (kind : JobFrameKind) : Option (SharedJob × JobFrame) :=
  s.job.execute.map fun job =>
    ({ s with job := job, log := s.log ++ [.moved n s.job.state job.state, .invoked n] },
      ⟨n, kind, .jobFunction⟩)

/-- `execute_job_async`: with the thread that it creates. -/
def executeJobAsync (s : SharedJob) (n error : ℕ) : SharedJob × List JobPc :=
  if s.job.state ≠ .created then
    (s.record [.reported n .executeJobAsync invalidJobState], [])
  else
    -- the state stays CREATED until the new thread comes to its own test
    (s.record [.reported n .executeJobAsync error], if error = 0 then [.spawned n] else [])

/-- `cancel_job` up to the call of the callback; `none` when it returns 0. -/
def cancelJob (s : SharedJob) (n : ℕ) : Option (SharedJob × JobFrame) :=
  if s.job.state ≠ .created then none
  else if s.job.params.cancellationCallback = none then
    some (s, ⟨n, .cancelJob, s.job.afterUserCode none⟩)
  else some (s.record [.cancellationCalled n], ⟨n, .cancelJob, .cancellationCallback⟩)

/-- A call that returns 0 because of the state, or a frame on top of the stack. -/
def enter (s : SharedJob) (n : ℕ) (k : JobCall) :
    Option (SharedJob × JobFrame) → SharedJob × List JobFrame × List JobPc
  | none => (s.record [.reported n k 0], [], [])
  | some (s, f) => (s, [f], [])

/-- The code of the user makes a call: the frames it adds, and the thread it creates. -/
def call (s : SharedJob) (k : JobCall) (error : ℕ) : SharedJob × List JobFrame × List JobPc :=
  let n := s.nextCall
  let s := { s with nextCall := n + 1 }
  match k with
  | .executeJob => s.enter n k (s.executeJob n .executeJob)
  | .executeJobAsync =>
    let r := s.executeJobAsync n error
    (r.1, [], r.2)
  | .cancelJob => s.enter n k (s.cancelJob n)

/-- `set_promised_result`, up to the call of the callback if it has one to call. -/
def setResult (s : SharedJob) (output : Ptr) : SharedJob × JobPoint :=
  match s.promise.setResult output with
  -- the callback runs after the release of `promise_lock`
  | (promise, .callback pcc _) =>
    ({ s with promise := { promise with invoked := promise.invoked ++ [pcc] } },
      .promiseCallback pcc)
  | (promise, _) => ({ s with promise := promise }, .setState)

/-- The last access of a call to the job. -/
def setState (s : SharedJob) (f : JobFrame) : SharedJob :=
  { s with
    job := { s.job with state := f.kind.finalState }
    log := s.log ++ .moved f.call s.job.state f.kind.finalState ::
      (f.kind.reports.map fun k => .reported f.call k k.success).toList }

/-- The frame on top of the stack goes on; no frame is left when the call returns. -/
def advance (s : SharedJob) (f : JobFrame) (res : Ptr) : SharedJob × List JobFrame :=
  match f.point with
  | .jobFunction => (s, [{ f with point := s.job.afterUserCode res }])
  | .cancellationCallback => (s, [{ f with point := s.job.afterUserCode none }])
  -- the promise is fulfilled here, and the state written two steps later at most
  | .setResult output => ((s.setResult output).1, [{ f with point := (s.setResult output).2 }])
  | .promiseCallback _ => (s, [{ f with point := .setState }])
  | .setState => (s.setState f, [])

/-- `execute_wrapper`. -/
def executeWrapper (s : SharedJob) (n : ℕ) : SharedJob × List JobFrame :=
  match s.executeJob n .executeWrapper with
  | none => (s, [])
  | some (s, f) => (s, [f])

end SharedJob

namespace JobPc

/-- The calls that a thread is in. -/
def frames : JobPc → List JobFrame
  | .owner fs => fs
  | .executing fs => fs
  | _ => []

/-- The thread with other calls. -/
def withFrames : JobPc → List JobFrame → JobPc
  | .owner _, fs => .owner fs
  | .executing _, fs => .executing fs
  | pc, _ => pc

/-- The thread runs code of the user: the owner does between its calls. -/
def inUserCode : JobPc → Bool
  | .owner [] => true
  | pc => pc.frames.head?.any fun f => f.point.inUserCode

end JobPc

/-- One step of thread `t`. -/
def jobStep (s : SharedJob) (t : ℕ) (pc : JobPc) :
    JobOutcome → Option (SharedJob × JobPc × List JobPc)
  | .call k error =>
    if pc.inUserCode then
      let r := s.call k error
      some (r.1, pc.withFrames (r.2.1 ++ pc.frames), r.2.2)
    else none
  | .proceed res =>
    match pc with
    | .spawned n => quietly ((s.executeWrapper n).1, .executing (s.executeWrapper n).2)
    | .observer q =>
      (promiseStep s.promise t q ()).map fun (promise, q', _) =>
        ({ s with promise := promise }, .observer q', [])
    | pc =>
      match pc.frames with
      | [] => none
      | f :: fs => quietly ((s.advance f res).1, pc.withFrames ((s.advance f res).2 ++ fs))

/-- A thread that waits for the result wakes spuriously. -/
def jobWake (s : SharedJob) (t : ℕ) : JobPc → Option SharedJob
  | .observer q => (promiseWake s.promise t q).map fun promise => { s with promise := promise }
  | _ => none

def jobSystem : System SharedJob JobPc PromiseReader JobOutcome where
  start _ k := .observer k.start
  step := jobStep
  wake := jobWake

/-- An initialized job with its promise, before the first call of its owner. -/
def jobInit (params : JobParams) : JobConfig :=
  ⟨⟨.init params, ⟨.init, []⟩, 0, []⟩, [.owner []]⟩

/-- The configurations that any calls of any threads lead to. -/
def JobReach (params : JobParams) : JobConfig → Prop :=
  jobSystem.Reach (fun _ _ => True) (jobInit params)

/-! ## Moves -/

/-- What a call does until it returns or comes to code of the user. -/
inductive CallMove (s : SharedJob) : JobCall → ℕ → SharedJob → List JobFrame → List JobPc → Prop
  | refused (k : JobCall) (error : ℕ) (res : ℤ) : res ≠ k.success →
      (s.job.state = .created → k = .executeJobAsync ∧ error ≠ 0) →
      CallMove s k error
        { s with nextCall := s.nextCall + 1, log := s.log ++ [.reported s.nextCall k res] } [] []
  | executeJob (error : ℕ) : s.job.state = .created →
      CallMove s .executeJob error
        { s with
          job := { s.job with state := .running }
          nextCall := s.nextCall + 1
          log := s.log ++ [.moved s.nextCall .created .running, .invoked s.nextCall] }
        [⟨s.nextCall, .executeJob, .jobFunction⟩] []
  | executeJobAsync : s.job.state = .created →
      CallMove s .executeJobAsync 0
        { s with
          nextCall := s.nextCall + 1
          log := s.log ++ [.reported s.nextCall .executeJobAsync 0] }
        [] [.spawned s.nextCall]
  | cancelJob (error : ℕ) (log : List JobEvent) (point : JobPoint) : s.job.state = .created →
      (s.job.params.cancellationCallback = none ∧ log = [] ∧
          point = s.job.afterUserCode none ∨
        s.job.params.cancellationCallback ≠ none ∧ log = [.cancellationCalled s.nextCall] ∧
          point = .cancellationCallback) →
      CallMove s .cancelJob error { s with nextCall := s.nextCall + 1, log := s.log ++ log }
        [⟨s.nextCall, .cancelJob, point⟩] []

/-- How many steps of its own a call is away from its end, at most. -/
def JobPoint.rank : JobPoint → ℕ
  | .jobFunction => 3
  | .cancellationCallback => 3
  | .setResult _ => 2
  | .promiseCallback _ => 1
  | .setState => 0

/-- What a step of a frame makes of the promise, and where the frame goes on. -/
inductive FrameMove (s : SharedJob) : JobPoint → PromiseState → JobPoint → Prop
  | returned (point : JobPoint) (output : Ptr) :
      point = .jobFunction ∨ point = .cancellationCallback ∧ output = none →
      FrameMove s point s.promise (s.job.afterUserCode output)
  | published (output : Ptr) (promise : PromiseState) (point : JobPoint) :
      promise.promise.outputResultReady = true →
      (point = .setState ∨ ∃ pcc, point = .promiseCallback pcc) →
      FrameMove s (.setResult output) promise point
  | callbackReturned (pcc : ℕ) : FrameMove s (.promiseCallback pcc) s.promise .setState

/-- One case for each branch of each step, guards included. -/
inductive JobThreadMove (s : SharedJob) (t : ℕ) :
    JobPc → JobOutcome → SharedJob → JobPc → List JobPc → Prop
  | call (pc : JobPc) (k : JobCall) (error : ℕ) (s' : SharedJob) (fs : List JobFrame)
      (new : List JobPc) : pc.inUserCode = true → CallMove s k error s' fs new →
      JobThreadMove s t pc (.call k error) s' (pc.withFrames (fs ++ pc.frames)) new
  | started (n : ℕ) (res : Ptr) : s.job.state = .created →
      JobThreadMove s t (.spawned n) (.proceed res)
        { s with
          job := { s.job with state := .running }
          log := s.log ++ [.moved n .created .running, .invoked n] }
        (.executing [⟨n, .executeWrapper, .jobFunction⟩]) []
  | late (n : ℕ) (res : Ptr) : s.job.state ≠ .created →
      JobThreadMove s t (.spawned n) (.proceed res) s (.executing []) []
  | advance (pc : JobPc) (f : JobFrame) (fs : List JobFrame) (res : Ptr) (promise : PromiseState)
      (point : JobPoint) : pc.frames = f :: fs → FrameMove s f.point promise point →
      JobThreadMove s t pc (.proceed res) { s with promise := promise }
        (pc.withFrames ({ f with point := point } :: fs)) []
  | finished (pc : JobPc) (f : JobFrame) (fs : List JobFrame) (res : Ptr) :
      pc.frames = f :: fs → f.point = .setState →
      JobThreadMove s t pc (.proceed res) (s.setState f) (pc.withFrames fs) []
  | observed (q q' : PromisePc) (res : Ptr) (promise : PromiseState) :
      PromiseMove s.promise t q promise q' →
      JobThreadMove s t (.observer q) (.proceed res) { s with promise := promise } (.observer q') []

theorem Job.execute_of_created {j : Job} (h : j.state = .created) :
    j.execute = some { j with state := .running } := by
  simp [Job.execute, h]

theorem Job.execute_of_not_created {j : Job} (h : j.state ≠ .created) : j.execute = none :=
  if_pos h

theorem call_move (s : SharedJob) (k : JobCall) (error : ℕ) :
    CallMove s k error (s.call k error).1 (s.call k error).2.1 (s.call k error).2.2 := by
  by_cases hstate : s.job.state = .created
  · cases k with
    | executeJob =>
      simp only [SharedJob.call, SharedJob.executeJob, Job.execute_of_created hstate, hstate]
      exact .executeJob error hstate
    | executeJobAsync =>
      simp only [SharedJob.call, SharedJob.executeJobAsync, hstate, ne_eq, not_true_eq_false,
        if_false]
      by_cases herror : error = 0
      · rw [if_pos herror, herror]
        exact .executeJobAsync hstate
      · rw [if_neg herror]
        exact .refused _ _ _ (Int.natCast_ne_zero.mpr herror) fun _ => ⟨rfl, herror⟩
    | cancelJob =>
      simp only [SharedJob.call, SharedJob.cancelJob, hstate, ne_eq, not_true_eq_false, if_false]
      by_cases hcallback : s.job.params.cancellationCallback = none
      · rw [if_pos hcallback]
        have hmove := CallMove.cancelJob error [] _ hstate (.inl ⟨hcallback, rfl, rfl⟩)
        rw [List.append_nil] at hmove
        exact hmove
      · rw [if_neg hcallback]
        exact .cancelJob error _ _ hstate (.inr ⟨hcallback, rfl, rfl⟩)
  · have hrefused : ∀ k res, res ≠ JobCall.success k → CallMove s k error
        { s with nextCall := s.nextCall + 1, log := s.log ++ [.reported s.nextCall k res] } [] [] :=
      fun k res hres => .refused k error res hres fun hcreated => absurd hcreated hstate
    cases k with
    | executeJob =>
      simp only [SharedJob.call, SharedJob.executeJob, Job.execute_of_not_created hstate]
      exact hrefused .executeJob 0 (by decide)
    | executeJobAsync =>
      simp only [SharedJob.call, SharedJob.executeJobAsync, if_pos hstate]
      exact hrefused .executeJobAsync _ (by decide)
    | cancelJob =>
      simp only [SharedJob.call, SharedJob.cancelJob, if_pos hstate]
      exact hrefused .cancelJob 0 (by decide)

/-- Fulfilling the promise leads to its callback, or past it. -/
theorem setResult_cases (s : SharedJob) (output : Ptr) :
    ∃ promise point, s.setResult output = ({ s with promise := promise }, point) ∧
      promise.promise.outputResultReady = true ∧
      (point = .setState ∨ ∃ pcc, point = .promiseCallback pcc) := by
  have hready : (s.promise.setResult output).1.promise.outputResultReady = true := by
    cases hready : s.promise.promise.outputResultReady with
    | false =>
      rw [PromiseState.setResult, Promise.setPromisedResult_of_not_ready hready]
    | true =>
      rw [PromiseState.setResult, Promise.setPromisedResult_of_ready hready]
      exact hready
  unfold SharedJob.setResult
  split
  · rename_i promise pcc r hset
    rw [hset] at hready
    exact ⟨_, _, rfl, hready, .inr ⟨pcc, rfl⟩⟩
  · rename_i promise pc hpc hset
    rw [hset] at hready
    exact ⟨_, _, rfl, hready, .inl rfl⟩

/-- A frame writes the state and is done, or goes on without an access to the state. -/
theorem advance_cases (s : SharedJob) (f : JobFrame) (res : Ptr) :
    (f.point = .setState ∧ s.advance f res = (s.setState f, [])) ∨
      ∃ promise point, FrameMove s f.point promise point ∧
        s.advance f res = ({ s with promise := promise }, [{ f with point := point }]) := by
  cases hpoint : f.point with
  | jobFunction =>
    refine .inr ⟨s.promise, s.job.afterUserCode res, .returned _ res (.inl rfl), ?_⟩
    simp only [SharedJob.advance, hpoint]
  | cancellationCallback =>
    refine .inr ⟨s.promise, s.job.afterUserCode none, .returned _ none (.inr ⟨rfl, rfl⟩), ?_⟩
    simp only [SharedJob.advance, hpoint]
  | setResult output =>
    obtain ⟨promise, point, hset, hready, hnext⟩ := setResult_cases s output
    refine .inr ⟨promise, point, .published output promise point hready hnext, ?_⟩
    simp only [SharedJob.advance, hpoint, hset]
  | promiseCallback pcc =>
    refine .inr ⟨s.promise, .setState, .callbackReturned pcc, ?_⟩
    simp only [SharedJob.advance, hpoint]
  | setState =>
    refine .inl ⟨rfl, ?_⟩
    simp only [SharedJob.advance, hpoint]

theorem advance_move {s s' : SharedJob} {t : ℕ} {pc pc' : JobPc} {f : JobFrame}
    {fs : List JobFrame} {res : Ptr} {new : List JobPc} (hframes : pc.frames = f :: fs)
    (h : quietly ((s.advance f res).1, pc.withFrames ((s.advance f res).2 ++ fs)) =
      some (s', pc', new)) : JobThreadMove s t pc (.proceed res) s' pc' new := by
  obtain ⟨hpoint, hadvance⟩ | ⟨promise, point, hmove, hadvance⟩ := advance_cases s f res
  · rw [hadvance] at h
    cases h
    exact .finished pc f fs res hframes hpoint
  · rw [hadvance] at h
    cases h
    exact .advance pc f fs res promise point hframes hmove

theorem jobStep_move {s s' : SharedJob} {t : ℕ} {pc pc' : JobPc} {o : JobOutcome}
    {new : List JobPc} (h : jobStep s t pc o = some (s', pc', new)) :
    JobThreadMove s t pc o s' pc' new := by
  cases o with
  | call k error =>
    simp only [jobStep] at h
    split at h
    · rename_i huser
      cases h
      exact .call pc k error _ _ _ huser (call_move s k error)
    · cases h
  | proceed res =>
    cases pc with
    | owner frames =>
      cases frames with
      | nil => cases h
      | cons f fs => exact advance_move rfl h
    | spawned n =>
      simp only [jobStep, SharedJob.executeWrapper, SharedJob.executeJob] at h
      by_cases hstate : s.job.state = .created
      · simp only [Job.execute_of_created hstate, hstate] at h
        cases h
        exact .started n res hstate
      · simp only [Job.execute_of_not_created hstate] at h
        cases h
        exact .late n res hstate
    | executing frames =>
      cases frames with
      | nil => cases h
      | cons f fs => exact advance_move rfl h
    | observer q =>
      simp only [jobStep, Option.map_eq_some_iff] at h
      obtain ⟨⟨promise, q', new'⟩, hs, h⟩ := h
      cases h
      exact .observed q q' res promise (promiseStep_move hs).1

theorem jobWake_frame {s s' : SharedJob} {t : ℕ} {pc : JobPc} (h : jobWake s t pc = some s') :
    ∃ cv, s' = { s with promise := { s.promise with
      promise := { s.promise.promise with promiseWait := cv } } } := by
  cases pc with
  | observer q =>
    simp only [jobWake, Option.map_eq_some_iff] at h
    obtain ⟨promise, hw, rfl⟩ := h
    obtain ⟨cv, rfl⟩ := promiseWake_frame hw
    exact ⟨cv, rfl⟩
  | _ => cases h

/-! ## Frames -/

namespace JobPc

@[simp] theorem frames_owner (fs : List JobFrame) : (owner fs).frames = fs := rfl

@[simp] theorem frames_executing (fs : List JobFrame) : (executing fs).frames = fs := rfl

/-- The thread is the owner, or executes the job. -/
def hasStack : JobPc → Bool
  | .owner _ => true
  | .executing _ => true
  | _ => false

theorem hasStack_of_frames {pc : JobPc} {f : JobFrame} {fs : List JobFrame}
    (h : pc.frames = f :: fs) : pc.hasStack = true := by
  cases pc with
  | owner _ => rfl
  | executing _ => rfl
  | spawned n => cases h
  | observer q => cases h

theorem hasStack_of_inUserCode {pc : JobPc} (h : pc.inUserCode = true) : pc.hasStack = true := by
  cases pc with
  | owner _ => rfl
  | executing _ => rfl
  | spawned n => cases h
  | observer q => cases h

theorem frames_withFrames {pc : JobPc} (h : pc.hasStack = true) (gs : List JobFrame) :
    (pc.withFrames gs).frames = gs := by
  cases pc with
  | owner _ => rfl
  | executing _ => rfl
  | spawned n => cases h
  | observer q => cases h

/-- A stack stays with a thread of its kind. -/
theorem hasStack_withFrames (pc : JobPc) (gs : List JobFrame) :
    (pc.withFrames gs).hasStack = pc.hasStack := by
  cases pc <;> rfl

end JobPc

end BoomPar
