-- SUMMARY: A job: its parameters, its state, and the transitions of its state by execution and cancellation.
import BoomPar.Promise

/-!
# `job`

A job has one owner at a time, which alone accesses its state. What execution
and cancellation do to the outside (the function, the callback, the promise) is
left to the component that owns the job.
-/

namespace BoomPar

inductive JobState where
  | created
  | running
  | completed
  | cancelled
  deriving DecidableEq

/-- What a job is created with. `name` is the call that creates it. -/
structure JobParams where
  name : ℕ
  jobFunction : Ptr
  inputP : Ptr
  promiseForOutput : Ptr
  cancellationCallback : Ptr
  deriving DecidableEq

structure Job where
  state : JobState
  params : JobParams
  deriving DecidableEq

namespace Job

/-- `initialize_job`. -/
def init (params : JobParams) : Job := ⟨.created, params⟩

/-- `new_job`: NULL for a NULL function, or when the allocation fails. -/
def new (params : JobParams) (allocated : Bool) : Option Job :=
  if params.jobFunction = none ∨ allocated = false then none else some (init params)

/-- `execute_job` up to the call of its function; NULL when it may not be executed. -/
def execute (j : Job) : Option Job :=
  if j.state ≠ .created then none else some { j with state := .running }

/-- `cancel_job`; NULL when it may not be cancelled. -/
def cancel (j : Job) : Option Job :=
  if j.state ≠ .created then none else some { j with state := .cancelled }

theorem eq_init_of_new {params : JobParams} {allocated : Bool} {j : Job}
    (h : new params allocated = some j) : j = init params := by
  unfold new at h
  split at h
  · cases h
  · exact (Option.some.inj h).symm

end Job

end BoomPar
