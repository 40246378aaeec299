-- SUMMARY: A promise: a result that is set once, read by waiting threads, with an optional completion callback.
import BoomPar.Monitor.CondVar

/-!
# `promise`

The critical sections of `promise.c`. A pointer is a name, with NULL as `none`.
-/

namespace BoomPar

open Monitor

/-- A pointer that the client owns, `none` for NULL. -/
abbrev Ptr := Option ℕ

structure Promise where
  outputResultReady : Bool
  outputResult : Ptr
  promiseWait : CondVar
  promisedCallback : Ptr
  deriving DecidableEq

namespace Promise

def init : Promise where
  outputResultReady := false
  outputResult := none
  promiseWait := ∅
  promisedCallback := none

/-- `set_promised_result`: the promise after the section, whether the result was
    set, and the callback to run after the lock is released. -/
def setPromisedResult (p : Promise) (res : Ptr) : Promise × Bool × Ptr :=
  if p.outputResultReady then (p, false, none)
  else
    ({ p with
        outputResult := res
        outputResultReady := true
        promiseWait := p.promiseWait.broadcast },
      true, p.promisedCallback)

/-- The loop of `get_promised_result`: the result, or `none` while the caller waits. -/
def getPromisedResult (p : Promise) : Option Ptr :=
  if p.outputResultReady then some p.outputResult else none

def isPromisedResultReady (p : Promise) : Bool := p.outputResultReady

/-- `set_promised_callback`: the promise after the section, whether the callback was
    set, and whether the result was ready. -/
def setPromisedCallback (p : Promise) (promisedCallback : Ptr) : Promise × Bool × Bool :=
  if p.promisedCallback = none then
    ({ p with promisedCallback := promisedCallback }, true, p.outputResultReady)
  else (p, false, p.outputResultReady)

theorem setPromisedResult_of_ready {p : Promise} (h : p.outputResultReady = true) (res : Ptr) :
    p.setPromisedResult res = (p, false, none) := if_pos h

theorem setPromisedResult_of_not_ready {p : Promise} (h : p.outputResultReady = false) (res : Ptr) :
    p.setPromisedResult res = (⟨true, res, ∅, p.promisedCallback⟩, true, p.promisedCallback) :=
  if_neg (Bool.eq_false_iff.mp h)

theorem getPromisedResult_of_ready {p : Promise} (h : p.outputResultReady = true) :
    p.getPromisedResult = some p.outputResult := if_pos h

theorem getPromisedResult_of_not_ready {p : Promise} (h : p.outputResultReady = false) :
    p.getPromisedResult = none := if_neg (Bool.eq_false_iff.mp h)

theorem setPromisedCallback_of_none {p : Promise} (h : p.promisedCallback = none)
    (promisedCallback : Ptr) : p.setPromisedCallback promisedCallback =
      ({ p with promisedCallback := promisedCallback }, true, p.outputResultReady) := if_pos h

theorem setPromisedCallback_of_some {p : Promise} {first : ℕ} (h : p.promisedCallback = some first)
    (promisedCallback : Ptr) :
    p.setPromisedCallback promisedCallback = (p, false, p.outputResultReady) :=
  if_neg (by rw [h]; exact nofun)

end Promise

end BoomPar
