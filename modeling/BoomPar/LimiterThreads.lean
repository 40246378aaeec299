-- SUMMARY: What each step of the limiter's threads can do, with its guards.
import BoomPar.ResourceUsageLimiter
import BoomPar.Monitor.Rules

/-!
# Threads of the limiter

The sections of the requesters, of the deleter and of the other clients, said
once as a relation.
-/

namespace BoomPar

open Monitor

/-- A requester is about to test the wait loop. -/
inductive RequestAt (s : LimiterState) (t : ℕ) (o : WaitOutcome) :
    LimiterPc → ResourceRequest → ℕ → Bool → Prop
  | call (req : ResourceRequest) (timeout : ℕ) :
      RequestAt s t o (.request req timeout) req timeout false
  | resume (req : ResourceRequest) (timeout : ℕ) : t ∉ s.limiter.resourceLimiterWait →
      RequestAt s t o (.requestWaiting req timeout) req (leftOf timeout o.remaining) o.waitError

/-- The deleter is about to test its wait loop. -/
inductive DeleteAt (s : LimiterState) (t : ℕ) : LimiterPc → Prop
  | call : DeleteAt s t .deleteTest
  | resume : t ∉ s.limiter.resourceLimiterWait → DeleteAt s t .deleteWaiting

/-- The state with the counts and the waiting threads changed. -/
def LimiterState.update (s : LimiterState) (wait : CondVar) (granted : UInt64) : LimiterState :=
  { s with
    limiter := { s.limiter with resourceLimiterWait := wait, resourceGrantedCount := granted } }

/-- The condition under which a requester waits. -/
structure RequestMustWait (s : LimiterState) (req : ResourceRequest) : Prop where
  running : s.limiter.shutdownRequested = false
  clear : req.breakOut ∉ s.brokenOut
  few : s.limiter.getResourcesLeft < req.minResourceCount
  enough : req.minResourceCount ≤ s.limiter.resourceCount

/-- Where a call comes to, past the checks that take no lock. -/
inductive LimiterStart : LimiterCall → LimiterPc → Prop
  | getResourceCount : LimiterStart .getResourceCount .getResourceCount
  | noCount : LimiterStart (.setResourceCount 0) (.returned (.countSet false))
  | setResourceCount (n : ResourceCount) : LimiterStart (.setResourceCount n) (.setResourceCount n)
  | noRequest (req : ResourceRequest) (timeout : ℕ) :
      (req.maxResourceCount < req.minResourceCount ∨ req.maxResourceCount = 0) →
      LimiterStart (.request req timeout) (.returned (.requested 0))
  | request (req : ResourceRequest) (timeout : ℕ) :
      req.minResourceCount ≤ req.maxResourceCount → req.maxResourceCount ≠ 0 →
      LimiterStart (.request req timeout) (.request req timeout)
  | nothingBack : LimiterStart (.giveBack 0) (.returned (.gaveBack 0 true))
  | giveBack (n : UInt64) : n ≠ 0 → LimiterStart (.giveBack n) (.giveBack n)
  | breakOut (b : ℕ) : LimiterStart (.breakOut b) (.breakOut b)
  | shutdown : LimiterStart .shutdown .shutdown
  | delete (wait : Bool) : LimiterStart (.delete wait) (.delete wait)

/-- One case for each branch of each section, guards included. -/
inductive LimiterMove (s : LimiterState) (t : ℕ) (o : WaitOutcome) :
    LimiterPc → LimiterState → LimiterPc → Prop
  | call (k : LimiterCall) (pc' : LimiterPc) : LimiterStart k pc' →
      LimiterMove s t o (.calling k) s pc'
  | getCount : LimiterMove s t o .getResourceCount s
      (.returned (.resourceCount s.limiter.resourceCount))
  | keepCount (n : ResourceCount) (res : Bool) :
      res = !s.limiter.shutdownRequested →
      (s.limiter.shutdownRequested = true ∨ s.limiter.resourceCount = n) →
      LimiterMove s t o (.setResourceCount n) s (.returned (.countSet res))
  | setCount (n : ResourceCount) : s.limiter.shutdownRequested = false →
      s.limiter.resourceCount ≠ n →
      LimiterMove s t o (.setResourceCount n)
        { s with limiter := { s.limiter with resourceLimiterWait := ∅, resourceCount := n } }
        (.returned (.countSet true))
  | wait (pc : LimiterPc) (req : ResourceRequest) (timeout : ℕ) (waitError : Bool) :
      RequestAt s t o pc req timeout waitError → waitError = false → RequestMustWait s req →
      timeout ≠ nonBlocking → LimiterMove s t o pc
        (s.update (s.limiter.resourceLimiterWait.wait t) s.limiter.resourceGrantedCount)
        (.requestWaiting req timeout)
  | refuse (pc : LimiterPc) (req : ResourceRequest) (timeout : ℕ) (waitError : Bool) :
      RequestAt s t o pc req timeout waitError →
      (s.limiter.shutdownRequested = true ∨ req.breakOut ∈ s.brokenOut ∨
        s.limiter.getResourcesLeft < req.minResourceCount) →
      LimiterMove s t o pc s (.returned (.requested 0))
  | grant (pc : LimiterPc) (req : ResourceRequest) (timeout : ℕ) (waitError : Bool) (res : UInt64) :
      RequestAt s t o pc req timeout waitError → s.limiter.shutdownRequested = false →
      req.breakOut ∉ s.brokenOut → req.minResourceCount ≤ s.limiter.getResourcesLeft →
      res = max (min s.limiter.getResourcesLeft req.maxResourceCount) req.minResourceCount →
      LimiterMove s t o pc
        (s.update s.limiter.resourceLimiterWait (s.limiter.resourceGrantedCount + res))
        (.returned (.requested res))
  | giveBack (n : UInt64) (s' : LimiterState) : n ≤ s.limiter.resourceGrantedCount →
      s' = s.update s.limiter.resourceLimiterWait (s.limiter.resourceGrantedCount - n) →
      LimiterMove s t o (.giveBack n)
        (s'.update (s.limiter.resourceLimiterWait.broadcastIf (0 < s'.limiter.getResourcesLeft))
          s'.limiter.resourceGrantedCount)
        (.returned (.gaveBack n true))
  | giveBackFails (n : UInt64) : s.limiter.resourceGrantedCount < n →
      LimiterMove s t o (.giveBack n) s (.returned (.gaveBack n false))
  | brokenOut (b : ℕ) : b ∈ s.brokenOut →
      LimiterMove s t o (.breakOut b) s (.returned .brokenOut)
  | breakOut (b : ℕ) : b ∉ s.brokenOut →
      LimiterMove s t o (.breakOut b)
        { s.update ∅ s.limiter.resourceGrantedCount with brokenOut := insert b s.brokenOut }
        (.returned .brokenOut)
  | shutdown : LimiterMove s t o .shutdown { s with limiter := s.limiter.shutdown }
      (.returned .shutdown)
  | delete (wait : Bool) : LimiterMove s t o (.delete wait) { s with limiter := s.limiter.shutdown }
      (if wait then .deleteTest else .destroy wait)
  | deleteWait (pc : LimiterPc) : DeleteAt s t pc → 0 < s.limiter.resourceGrantedCount →
      LimiterMove s t o pc
        (s.update (s.limiter.resourceLimiterWait.wait t) s.limiter.resourceGrantedCount)
        .deleteWaiting
  | deletePass (pc : LimiterPc) : DeleteAt s t pc → s.limiter.resourceGrantedCount = 0 →
      LimiterMove s t o pc s (.destroy true)
  | destroy (wait : Bool) :
      LimiterMove s t o (.destroy wait) { s with destroyed := true } (.returned .deleted)

theorem LimiterCall.start_spec (k : LimiterCall) : LimiterStart k k.start := by
  cases k with
  | getResourceCount => exact .getResourceCount
  | setResourceCount n =>
    simp only [LimiterCall.start]
    split
    · rename_i hzero
      rw [hzero]
      exact .noCount
    · rename_i hne
      exact .setResourceCount ⟨n, hne⟩
  | request req timeout =>
    simp only [LimiterCall.start]
    split_ifs with hrange hzero
    · exact .noRequest req timeout (.inl hrange)
    · exact .noRequest req timeout (.inr hzero)
    · exact .request req timeout (UInt64.not_lt.mp hrange) hzero
  | giveBack n =>
    simp only [LimiterCall.start]
    split
    · rename_i hzero
      rw [hzero]
      exact .nothingBack
    · rename_i hne
      exact .giveBack n hne
  | breakOut b => exact .breakOut b
  | shutdown => exact .shutdown
  | delete wait => exact .delete wait

theorem limiter_request_move {s s' : LimiterState} {t : ℕ} {o : WaitOutcome} {pc pc' : LimiterPc}
    {req : ResourceRequest} {timeout : ℕ} {waitError : Bool} {new : List LimiterPc}
    (hat : RequestAt s t o pc req timeout waitError)
    (h : quietly (s.request t req timeout waitError) = some (s', pc', new)) :
    LimiterMove s t o pc s' pc' ∧ new = [] := by
  simp only [LimiterState.request, ResourceUsageLimiter.request] at h
  split at h
  · rename_i hwait
    obtain ⟨hmust, herror, htimeout⟩ := hwait
    cases h
    simp only [ResourceUsageLimiter.requestMustWait, Bool.and_eq_true, Bool.not_eq_true',
      decide_eq_true_eq, decide_eq_false_iff_not] at hmust
    obtain ⟨⟨⟨hrunning, hclear⟩, hfew⟩, henough⟩ := hmust
    exact ⟨.wait pc req timeout waitError hat herror ⟨hrunning, hclear, hfew, henough⟩ htimeout,
      rfl⟩
  · simp only [ResourceUsageLimiter.requestAfterWait] at h
    split at h
    · rename_i hgo
      simp only [Bool.and_eq_true, Bool.not_eq_true', decide_eq_false_iff_not] at hgo
      split at h
      · rename_i hleft
        cases h
        exact ⟨.grant pc req timeout waitError _ hat hgo.1 hgo.2 hleft rfl, rfl⟩
      · rename_i hleft
        cases h
        exact ⟨.refuse pc req timeout waitError hat (.inr (.inr (UInt64.not_le.mp hleft))), rfl⟩
    · rename_i hstop
      cases h
      refine ⟨.refuse pc req timeout waitError hat ?_, rfl⟩
      simp only [Bool.and_eq_true, Bool.not_eq_true', decide_eq_false_iff_not, not_and_or,
        Bool.not_eq_false, not_not] at hstop
      exact hstop.imp_right .inl

theorem limiter_awaitReturned_move {s s' : LimiterState} {t : ℕ} {o : WaitOutcome}
    {pc pc' : LimiterPc} {new : List LimiterPc} (hat : DeleteAt s t pc)
    (h : quietly (s.awaitReturned t) = some (s', pc', new)) :
    LimiterMove s t o pc s' pc' ∧ new = [] := by
  simp only [LimiterState.awaitReturned] at h
  split at h
  · rename_i hgranted
    cases h
    exact ⟨.deleteWait pc hat hgranted, rfl⟩
  · rename_i hnone
    cases h
    exact ⟨.deletePass pc hat (UInt64.le_zero_iff.mp (UInt64.not_lt.mp hnone)), rfl⟩

theorem limiterStep_live {s : LimiterState} (h : s.destroyed = false) (t : ℕ) (pc : LimiterPc)
    (o : WaitOutcome) : limiterStep s t pc o = limiterSection s t pc o :=
  if_neg (Bool.eq_false_iff.mp h)

theorem limiterStep_move {s s' : LimiterState} {t : ℕ} {o : WaitOutcome} {pc pc' : LimiterPc}
    {new : List LimiterPc} (h : limiterStep s t pc o = some (s', pc', new)) :
    s.destroyed = false ∧ LimiterMove s t o pc s' pc' ∧ new = [] := by
  unfold limiterStep at h
  split at h
  · cases h
  rename_i hlive
  refine ⟨Bool.eq_false_iff.mpr hlive, ?_⟩
  cases pc with
  | calling k => cases h; exact ⟨.call k _ k.start_spec, rfl⟩
  | getResourceCount => cases h; exact ⟨.getCount, rfl⟩
  | setResourceCount n =>
    simp only [limiterSection, ResourceUsageLimiter.setResourceCount] at h
    split at h
    · rename_i hshutdown
      cases h
      exact ⟨.keepCount n false (by rw [hshutdown]; rfl) (.inl hshutdown), rfl⟩
    · rename_i hrunning
      have hrunning := Bool.eq_false_iff.mpr hrunning
      split at h
      · rename_i hne
        cases h
        exact ⟨.setCount n hrunning hne, rfl⟩
      · rename_i hsame
        cases h
        exact ⟨.keepCount n true (by rw [hrunning]; rfl) (.inr (not_not.mp hsame)), rfl⟩
  | request req timeout => exact limiter_request_move (.call req timeout) h
  | requestWaiting req timeout =>
    simp only [limiterSection] at h
    split at h
    · cases h
    · rename_i hwoken
      exact limiter_request_move (.resume req timeout hwoken) h
  | giveBack n =>
    simp only [limiterSection, ResourceUsageLimiter.giveBackResources] at h
    split at h
    · rename_i hle
      cases h
      exact ⟨.giveBack n (s.update s.limiter.resourceLimiterWait
        (s.limiter.resourceGrantedCount - n)) hle rfl, rfl⟩
    · rename_i hlt
      cases h
      exact ⟨.giveBackFails n (UInt64.not_le.mp hlt), rfl⟩
  | breakOut b =>
    simp only [limiterSection, LimiterState.breakOut] at h
    split at h
    · rename_i hset
      cases h
      exact ⟨.brokenOut b hset, rfl⟩
    · rename_i hclear
      cases h
      exact ⟨.breakOut b hclear, rfl⟩
  | shutdown => cases h; exact ⟨.shutdown, rfl⟩
  | delete wait => cases h; exact ⟨.delete wait, rfl⟩
  | deleteTest => exact limiter_awaitReturned_move .call h
  | deleteWaiting =>
    simp only [limiterSection] at h
    split at h
    · cases h
    · rename_i hwoken
      exact limiter_awaitReturned_move (.resume hwoken) h
  | destroy wait => cases h; exact ⟨.destroy wait, rfl⟩
  | returned r => cases h

/-- A wake-up unblocks a thread and changes nothing else. -/
theorem limiterWake_frame {s s' : LimiterState} {t : ℕ} {pc : LimiterPc}
    (h : limiterWake s t pc = some s') :
    s' = s.update (s.limiter.resourceLimiterWait.erase t) s.limiter.resourceGrantedCount := by
  simp only [limiterWake] at h
  split at h
  · cases h
  · cases pc with
    | requestWaiting req timeout => cases h; rfl
    | deleteWaiting => cases h; rfl
    | _ => cases h

end BoomPar
