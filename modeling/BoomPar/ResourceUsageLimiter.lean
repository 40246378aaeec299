-- SUMMARY: The resource usage limiter: its sections over 64-bit counts, and the system of its threads.
import Mathlib.Algebra.Order.Monoid.Unbundled.WithTop
import BoomPar.Platform
import BoomPar.Monitor.System

/-!
# `resource_usage_limiter`

Clients request between `min` and `max` of the resources that are left and give
them back later. The number of resources can be lowered below what is granted,
and a waiting request can be broken out of by a flag that its client owns.
-/

namespace BoomPar

open Monitor

/-- A number of resources to manage: it can never become 0. -/
abbrev ResourceCount := { n : UInt64 // n ≠ 0 }

structure ResourceUsageLimiter where
  /-- Requesters and the deleter wait here. -/
  resourceLimiterWait : CondVar
  resourceCount : ResourceCount
  resourceGrantedCount : UInt64
  shutdownRequested : Bool
  deriving DecidableEq

/-- The parameters of a request; the flag is named by its address. -/
structure ResourceRequest where
  minResourceCount : UInt64
  maxResourceCount : UInt64
  breakOut : ℕ
  deriving DecidableEq

namespace ResourceUsageLimiter

/-- `new_resource_usage_limiter`; NULL for no resources, or when the allocation fails. -/
def new (resourceCount : UInt64) (allocated : Bool) : Option ResourceUsageLimiter :=
  if h : resourceCount = 0 then none
  else if allocated = false then none
  else some
    { resourceLimiterWait := ∅
      resourceCount := ⟨resourceCount, h⟩
      resourceGrantedCount := 0
      shutdownRequested := false }

def getResourceCount (rul : ResourceUsageLimiter) : UInt64 := rul.resourceCount

/-- The section of `set_resource_count`, which 0 does not come to. -/
def setResourceCount (rul : ResourceUsageLimiter) (newResourceCount : ResourceCount) :
    ResourceUsageLimiter × Bool :=
  if rul.shutdownRequested then (rul, false)
  else if rul.resourceCount ≠ newResourceCount then
    ({ rul with
        resourceLimiterWait := rul.resourceLimiterWait.broadcast
        resourceCount := newResourceCount }, true)
  else (rul, true)

def getResourcesLeft (rul : ResourceUsageLimiter) : UInt64 :=
  if rul.resourceGrantedCount ≤ rul.resourceCount then
    rul.resourceCount - rul.resourceGrantedCount
  -- more resources are granted than there are
  else 0

/-- The test of the loop in which a requester waits, without the wait error. -/
def requestMustWait (rul : ResourceUsageLimiter) (brokenOut : Bool) (minResourceCount : UInt64) :
    Bool :=
  !rul.shutdownRequested && !brokenOut && rul.getResourcesLeft < minResourceCount &&
    minResourceCount ≤ rul.resourceCount

/-- `request_resources_from_resource_usage_limiter` after its wait loop. -/
def requestAfterWait (rul : ResourceUsageLimiter) (brokenOut : Bool)
    (minResourceCount maxResourceCount : UInt64) : ResourceUsageLimiter × UInt64 :=
  if !rul.shutdownRequested && !brokenOut then
    let resourcesLeft := rul.getResourcesLeft
    if minResourceCount ≤ resourcesLeft then
      let res := max (min resourcesLeft maxResourceCount) minResourceCount
      ({ rul with resourceGrantedCount := rul.resourceGrantedCount + res }, res)
    else (rul, 0)
  else (rul, 0)

/-- `request_resources_from_resource_usage_limiter` from the test of its wait loop,
    for thread `t`. A wait with the timeout `nonBlocking` returns its error at once. -/
def request (rul : ResourceUsageLimiter) (t : ℕ) (req : ResourceRequest) (brokenOut : Bool)
    (timeout : ℕ) (waitError : Bool) : ResourceUsageLimiter × Option UInt64 :=
  if rul.requestMustWait brokenOut req.minResourceCount = true ∧ waitError = false ∧
      timeout ≠ nonBlocking then
    ({ rul with resourceLimiterWait := rul.resourceLimiterWait.wait t }, none)
  else
    let r := rul.requestAfterWait brokenOut req.minResourceCount req.maxResourceCount
    (r.1, some r.2)

/-- The section of `give_back_resources_to_resource_usage_limiter`, which 0 does not
    come to. -/
def giveBackResources (rul : ResourceUsageLimiter) (grantedResourceCount : UInt64) :
    ResourceUsageLimiter × Bool :=
  if grantedResourceCount ≤ rul.resourceGrantedCount then
    let rul := { rul with resourceGrantedCount := rul.resourceGrantedCount - grantedResourceCount }
    ({ rul with
        resourceLimiterWait := rul.resourceLimiterWait.broadcastIf (0 < rul.getResourcesLeft) },
      true)
  else (rul, false)

def shutdown (rul : ResourceUsageLimiter) : ResourceUsageLimiter :=
  { rul with
    shutdownRequested := true
    resourceLimiterWait := rul.resourceLimiterWait.broadcast }

/-! ## Counts -/

/-- A new limiter has granted nothing, and nobody waits on it. -/
theorem new_fresh {resourceCount : UInt64} {allocated : Bool} {rul : ResourceUsageLimiter}
    (h : new resourceCount allocated = some rul) :
    rul.resourceGrantedCount = 0 ∧ rul.resourceLimiterWait = ∅ := by
  unfold new at h
  split at h
  · cases h
  · split at h
    · cases h
    · cases h
      exact ⟨rfl, rfl⟩

/-- What is left, without a wrap. -/
theorem toNat_getResourcesLeft (rul : ResourceUsageLimiter) :
    rul.getResourcesLeft.toNat =
      rul.resourceCount.1.toNat - rul.resourceGrantedCount.toNat := by
  unfold getResourcesLeft
  split
  · rename_i hle
    exact UInt64.toNat_sub_of_le _ _ hle
  · rename_i hlt
    rw [UInt64.le_iff_toNat_le] at hlt
    rw [UInt64.toNat_zero]
    omega

/-- What is left can be granted without a wrap. -/
theorem toNat_granted_add {rul : ResourceUsageLimiter} {res : UInt64}
    (h : res ≤ rul.getResourcesLeft) :
    (rul.resourceGrantedCount + res).toNat = rul.resourceGrantedCount.toNat + res.toNat := by
  rw [UInt64.le_iff_toNat_le, toNat_getResourcesLeft] at h
  have hcount := rul.resourceCount.1.toNat_lt
  have hgranted := rul.resourceGrantedCount.toNat_lt
  rw [UInt64.toNat_add, Nat.mod_eq_of_lt (by omega)]

/-- A request is granted no more than what is left. -/
theorem granted_le {left minResourceCount maxResourceCount : UInt64}
    (h : minResourceCount ≤ left) :
    max (min left maxResourceCount) minResourceCount ≤ left := by
  have hmin : min left maxResourceCount ≤ left := by
    simp only [min]
    split
    · exact UInt64.le_refl left
    · rename_i hlt
      exact (UInt64.le_total left maxResourceCount).resolve_left hlt
  simp only [max]
  split
  · exact h
  · exact hmin

end ResourceUsageLimiter

/-! ## Threads -/

/-- A limiter, the flags of the clients that are set, and whether the limiter was
    destroyed and freed. -/
structure LimiterState where
  limiter : ResourceUsageLimiter
  brokenOut : Finset ℕ
  destroyed : Bool
  deriving DecidableEq

inductive LimiterResult where
  | resourceCount (n : UInt64)
  | countSet (res : Bool)
  | requested (res : UInt64)
  | gaveBack (grantedResourceCount : UInt64) (res : Bool)
  | brokenOut
  | shutdown
  | deleted
  deriving DecidableEq

inductive LimiterCall where
  | getResourceCount
  | setResourceCount (newResourceCount : UInt64)
  | request (req : ResourceRequest) (timeout : ℕ)
  | giveBack (grantedResourceCount : UInt64)
  | breakOut (breakOut : ℕ)
  | shutdown
  | delete (waitForResourcesToBeReturned : Bool)
  deriving DecidableEq

/-- The control state of a thread, named by the section it enters next. -/
inductive LimiterPc where
  /-- The call has begun, and has not come to its section yet. -/
  | calling (k : LimiterCall)
  | getResourceCount
  | setResourceCount (newResourceCount : ResourceCount)
  | request (req : ResourceRequest) (timeout : ℕ)
  | requestWaiting (req : ResourceRequest) (timeout : ℕ)
  | giveBack (grantedResourceCount : UInt64)
  | breakOut (breakOut : ℕ)
  | shutdown
  | delete (waitForResourcesToBeReturned : Bool)
  | deleteTest
  | deleteWaiting
  /-- The lock is released for the last time; the limiter is to be destroyed and freed. -/
  | destroy (waitForResourcesToBeReturned : Bool)
  | returned (r : LimiterResult)
  deriving DecidableEq

abbrev LimiterConfig := Config LimiterState LimiterPc

/-- The section that a call enters first; the checks before it take no lock. -/
def LimiterCall.start : LimiterCall → LimiterPc
  | .getResourceCount => .getResourceCount
  | .setResourceCount n =>
    if h : n = 0 then .returned (.countSet false) else .setResourceCount ⟨n, h⟩
  | .request req timeout =>
    if req.maxResourceCount < req.minResourceCount then .returned (.requested 0)
    else if req.maxResourceCount = 0 then .returned (.requested 0)
    else .request req timeout
  | .giveBack n => if n = 0 then .returned (.gaveBack n true) else .giveBack n
  | .breakOut b => .breakOut b
  | .shutdown => .shutdown
  | .delete wait => .delete wait

namespace LimiterState

def request (s : LimiterState) (t : ℕ) (req : ResourceRequest) (timeout : ℕ) (waitError : Bool) :
    LimiterState × LimiterPc :=
  let r := s.limiter.request t req (req.breakOut ∈ s.brokenOut) timeout waitError
  ({ s with limiter := r.1 },
    match r.2 with
    | none => .requestWaiting req timeout
    | some res => .returned (.requested res))

def breakOut (s : LimiterState) (b : ℕ) : LimiterState :=
  -- if not broken out earlier, only then break out now
  if b ∈ s.brokenOut then s
  else
    { s with
      brokenOut := insert b s.brokenOut
      limiter := { s.limiter with
        resourceLimiterWait := s.limiter.resourceLimiterWait.broadcast } }

/-- The wait loop of `delete_resource_usage_limiter`. -/
def awaitReturned (s : LimiterState) (t : ℕ) : LimiterState × LimiterPc :=
  if 0 < s.limiter.resourceGrantedCount then
    ({ s with
        limiter := { s.limiter with
          resourceLimiterWait := s.limiter.resourceLimiterWait.wait t } }, .deleteWaiting)
  else (s, .destroy true)

end LimiterState

/-- What the environment decides in a section: how a timed wait ended. -/
structure WaitOutcome where
  waitError : Bool
  remaining : ℕ
  deriving DecidableEq

/-- One section of thread `t`. -/
def limiterSection (s : LimiterState) (t : ℕ) :
    LimiterPc → WaitOutcome → Option (LimiterState × LimiterPc × List LimiterPc)
  | .calling k, _ => quietly (s, k.start)
  | .getResourceCount, _ => quietly (s, .returned (.resourceCount s.limiter.getResourceCount))
  | .setResourceCount n, _ =>
    let r := s.limiter.setResourceCount n
    quietly ({ s with limiter := r.1 }, .returned (.countSet r.2))
  | .request req timeout, _ => quietly (s.request t req timeout false)
  | .requestWaiting req timeout, o =>
    if t ∈ s.limiter.resourceLimiterWait then none
    else quietly (s.request t req (leftOf timeout o.remaining) o.waitError)
  | .giveBack n, _ =>
    let r := s.limiter.giveBackResources n
    quietly ({ s with limiter := r.1 }, .returned (.gaveBack n r.2))
  | .breakOut b, _ => quietly (s.breakOut b, .returned .brokenOut)
  | .shutdown, _ => quietly ({ s with limiter := s.limiter.shutdown }, .returned .shutdown)
  | .delete wait, _ =>
    quietly ({ s with limiter := s.limiter.shutdown }, if wait then .deleteTest else .destroy wait)
  | .deleteTest, _ => quietly (s.awaitReturned t)
  | .deleteWaiting, _ =>
    if t ∈ s.limiter.resourceLimiterWait then none else quietly (s.awaitReturned t)
  | .destroy _, _ => quietly ({ s with destroyed := true }, .returned .deleted)
  | .returned _, _ => none

/-- Nothing is defined on a limiter that was freed. -/
def limiterStep (s : LimiterState) (t : ℕ) (pc : LimiterPc) (o : WaitOutcome) :
    Option (LimiterState × LimiterPc × List LimiterPc) :=
  if s.destroyed then none else limiterSection s t pc o

/-- A blocked thread wakes by its timeout or spuriously. -/
def limiterWake (s : LimiterState) (t : ℕ) (pc : LimiterPc) : Option LimiterState :=
  let woken := { s with limiter := { s.limiter with
    resourceLimiterWait := s.limiter.resourceLimiterWait.erase t } }
  if s.destroyed then none
  else
    match pc with
    | .requestWaiting _ _ => some woken
    | .deleteWaiting => some woken
    | _ => none

def limiterSystem : System LimiterState LimiterPc LimiterCall WaitOutcome where
  start _ := .calling
  step := limiterStep
  wake := limiterWake

/-- A new limiter, and the flags that are set. -/
def limiterInit (rul : ResourceUsageLimiter) (brokenOut : Finset ℕ) : LimiterConfig :=
  ⟨⟨rul, brokenOut, false⟩, []⟩

/-- The configurations that any interleaving of any calls leads to. -/
def LimiterReach (rul : ResourceUsageLimiter) (brokenOut : Finset ℕ) : LimiterConfig → Prop :=
  limiterSystem.Reach (fun _ _ => True) (limiterInit rul brokenOut)

end BoomPar
